import Mathlib.Tactic.SplitIfs
import Relocate.Bytes.Scan
import Relocate.Proofs.Bytes.Encoding
import Relocate.Proofs.Clause.Splice

/-!
# Bytes and characters are read alike

Reading a text by offsets into its bytes (`tokens?`) goes the way of reading
its characters (`scan`). Every test on a byte treats the bytes of a character
beyond ASCII alike, and what a backslash leaves of such a character is passed
over anyway; so the reading stops between characters only, and no slice is
missing.

* `skipLiteral_encode`, `skipTemplate_encode`, `skipBlock_encode`: what is
  passed over ends where it ends when characters are read.
* `readClause?_split`: so does a clause.
* `step?_split`: one step of the reading takes one piece.
* `tokens?_eq`: every text is read to its end, and the clauses found are its
  sites.
-/
namespace Relocate.Bytes

open Text

/-! ## Bytes of a text at hand -/

section Split

variable {text : String} {u v : List Char}

theorem bytes_eq (text : String) : bytes text = encode text.toList := by
  rw [bytes, String.toUTF8_eq_toByteArray, toByteArray_eq, List.data_toByteArray]

theorem bytes_split (h : text.toList = u ++ v) : bytes text = encode u ++ encode v := by
  rw [bytes_eq, h, encode_append]

theorem drop_split (h : text.toList = u ++ v) : (bytes text).drop (byteLength u) = encode v := by
  rw [bytes_split h]
  exact List.drop_left' (length_encode u)

theorem skipWhile_split {p : Char → Bool} (hp : Bytewise p) (h : text.toList = u ++ v) :
    skipWhile p (bytes text) (byteLength u) = byteLength u + byteLength (v.takeWhile p) := by
  rw [skipWhile, drop_split h, takeWhile_encode hp, length_encode]

theorem position?_split {p : Char → Bool} (hp : Bytewise p) (h : text.toList = u ++ v) :
    position? p (bytes text) (byteLength u) =
      some (byteLength u + byteLength (v.takeWhile fun c => !p c)) := by
  have hle : byteLength u ≤ (bytes text).length := by simp [bytes_split h]
  have hnot : Bytewise fun c => !p c := fun c d hc hd => by simp [hp c d hc hd]
  rw [position?, if_pos hle, skipWhile_split hnot h]

theorem at?_split_nil (h : text.toList = u) : at? (bytes text) (byteLength u) = none := by
  simp [at?, bytes_eq, h]

theorem at?_append (pre : List UInt8) (b : UInt8) (post : List UInt8) :
    at? (pre ++ b :: post) pre.length = some (Char.ofUInt8 b) := by
  simp [at?]

/-- `c'` stands for `c` where bytes are tested one by one. -/
def Leads (c' c : Char) : Prop := ∃ b ∈ String.utf8EncodeChar c, c' = Char.ofUInt8 b

theorem at?_encode (pre : List UInt8) (c : Char) (t : List Char) :
    ∃ c', Leads c' c ∧ at? (pre ++ encode (c :: t)) pre.length = some c' := by
  obtain ⟨b, bs, hencode⟩ := List.exists_cons_of_ne_nil (String.utf8EncodeChar_ne_nil (c := c))
  refine ⟨Char.ofUInt8 b, ⟨b, by simp [hencode], rfl⟩, ?_⟩
  rw [encode_cons, hencode]
  exact at?_append pre b _

theorem at?_split_cons {c : Char} (h : text.toList = u ++ c :: v) :
    ∃ c', Leads c' c ∧ at? (bytes text) (byteLength u) = some c' := by
  rw [bytes_split h, ← length_encode u]
  exact at?_encode (encode u) c v

theorem Leads.test {c' c : Char} (h : Leads c' c) {p : Char → Bool} (hp : Bytewise p) :
    p c' = p c := by
  obtain ⟨b, hb, rfl⟩ := h
  exact hp.eq_of_mem hb

theorem Leads.eq_iff {c' c d : Char} (h : Leads c' c) (hd : isBeyondAscii d = false) :
    c' = d ↔ c = d := by
  simpa using congrArg (· = true) (h.test (bytewise_eq hd))

/-- The next byte is one of ASCII exactly when the next character is. -/
theorem at?_eq_some_iff (pre : List UInt8) (t : List Char) {d : Char}
    (hd : isBeyondAscii d = false) : at? (pre ++ encode t) pre.length = some d ↔ t.head? = some d := by
  cases t with
  | nil => simp [at?]
  | cons c t =>
    obtain ⟨c', hlead, hat⟩ := at?_encode pre c t
    rw [hat, Option.some_inj, hlead.eq_iff hd, List.head?_cons, Option.some_inj]

theorem at?_next_iff (pre : List UInt8) {c d : Char} (t : List Char)
    (hc : isBeyondAscii c = false) (hd : isBeyondAscii d = false) :
    at? (pre ++ encode (c :: t)) (pre.length + 1) = some d ↔ t.head? = some d := by
  obtain ⟨b, hencode, -⟩ := utf8EncodeChar_of_ascii hc
  rw [← at?_eq_some_iff (pre ++ [b]) t hd]
  simp [hencode]

end Split

/-! ## What is passed over -/

theorem Leads.eq_or_beyond {c' c : Char} (h : Leads c' c) : c' = c ∨ isBeyondAscii c' := by
  obtain ⟨b, hb, rfl⟩ := h
  cases hascii : isBeyondAscii c with
  | false =>
    obtain ⟨b', hencode, hchar⟩ := utf8EncodeChar_of_ascii hascii
    rw [hencode, List.mem_singleton] at hb
    exact .inl (by rw [hb, hchar])
  | true => exact .inr (beyond_of_mem_utf8EncodeChar hascii hb)

/-- Behind the first byte of a character come bytes beyond ASCII only. -/
theorem exists_utf8EncodeChar (c : Char) : ∃ b high, String.utf8EncodeChar c = b :: high ∧
    ∀ x ∈ high, isBeyondAscii (Char.ofUInt8 x) := by
  cases hascii : isBeyondAscii c with
  | false =>
    obtain ⟨b, hencode, -⟩ := utf8EncodeChar_of_ascii hascii
    exact ⟨b, [], hencode, by simp⟩
  | true =>
    obtain ⟨b, high, hencode⟩ := List.exists_cons_of_ne_nil (String.utf8EncodeChar_ne_nil (c := c))
    exact ⟨b, high, hencode, fun x hx => beyond_of_mem_utf8EncodeChar hascii (by simp [hencode, hx])⟩

section Skip

variable {ends : Char → Option Nat}

theorem skipTo_none {bs : List UInt8} {i : Nat} (h : at? bs i = none) :
    skipTo ends bs i = bs.length := by
  rw [skipTo, h]

theorem skipTo_some {bs : List UInt8} {i : Nat} {c : Char} (h : at? bs i = some c) :
    skipTo ends bs i = if c = '\\' then skipTo ends bs (i + 2) else
      (ends c).elim (skipTo ends bs (i + 1)) (i + ·) := by
  rw [skipTo, h]
  dsimp only
  cases ends c <;> rfl

/-- Bytes that neither end the literal nor are a backslash are passed over. -/
theorem skipTo_pass (pre mid post : List UInt8)
    (h : ∀ b ∈ mid, Char.ofUInt8 b ≠ '\\' ∧ ends (Char.ofUInt8 b) = none) :
    skipTo ends (pre ++ (mid ++ post)) pre.length =
      skipTo ends (pre ++ (mid ++ post)) (pre ++ mid).length := by
  induction mid generalizing pre with
  | nil => simp
  | cons b mid ih =>
    have hb := h b List.mem_cons_self
    have hrest := ih (pre ++ [b]) fun x hx => h x (List.mem_cons_of_mem _ hx)
    rw [List.cons_append, skipTo_some (at?_append pre b (mid ++ post)), if_neg hb.1, hb.2]
    simpa using hrest

variable (hbeyond : ∀ d, isBeyondAscii d → ends d = none)
include hbeyond

theorem skipTo_char (pre : List UInt8) {c : Char} (t : List Char) (hc : c ≠ '\\')
    (hends : ends c = none) :
    skipTo ends (pre ++ encode (c :: t)) pre.length =
      skipTo ends (pre ++ encode (c :: t)) (pre ++ String.utf8EncodeChar c).length := by
  refine skipTo_pass pre _ _ fun b hb => ?_
  have hlead : Leads (Char.ofUInt8 b) c := ⟨b, hb, rfl⟩
  rcases hlead.eq_or_beyond with heq | hhigh
  · rw [heq]
    exact ⟨hc, hends⟩
  · exact ⟨ne_of_beyond hhigh (by decide), hbeyond _ hhigh⟩

/-- A backslash takes a whole character with it: the bytes behind the first are passed over
anyway. -/
theorem skipTo_escape (pre : List UInt8) (c : Char) (t : List Char) :
    skipTo ends (pre ++ encode ('\\' :: c :: t)) pre.length =
      skipTo ends (pre ++ encode ('\\' :: c :: t)) (pre ++ encode ['\\', c]).length := by
  obtain ⟨b, high, hencode, hhigh⟩ := exists_utf8EncodeChar c
  have hback : String.utf8EncodeChar '\\' = [0x5C] := rfl
  have hat : at? (pre ++ encode ('\\' :: c :: t)) pre.length = some '\\' := at?_append pre 0x5C _
  have hpass : skipTo ends (pre ++ [0x5C, b] ++ (high ++ encode t)) (pre ++ [0x5C, b]).length =
      skipTo ends (pre ++ [0x5C, b] ++ (high ++ encode t)) (pre ++ [0x5C, b] ++ high).length :=
    skipTo_pass _ _ _ fun x hx =>
      ⟨ne_of_beyond (hhigh x hx) (by decide), hbeyond _ (hhigh x hx)⟩
  rw [skipTo_some hat, if_pos rfl]
  simpa [hback, hencode] using hpass

end Skip

/-- `f` takes from a text what `skipTo ends` passes over. -/
structure Passes (ends : Char → Option Nat) (f : List Char → List Char) : Prop where
  beyond : ∀ d, isBeyondAscii d → ends d = none
  nil : f [] = []
  lone : f ['\\'] = ['\\']
  escape : ∀ c t, f ('\\' :: c :: t) = '\\' :: c :: f t
  stop : ∀ c n t, c ≠ '\\' → ends c = some n → byteLength (f (c :: t)) = n
  pass : ∀ c t, c ≠ '\\' → ends c = none → f (c :: t) = c :: f t

theorem Passes.skipTo_encode {ends : Char → Option Nat} {f : List Char → List Char}
    (h : Passes ends f) (pre : List UInt8) (t : List Char) :
    skipTo ends (pre ++ encode t) pre.length = pre.length + byteLength (f t) := by
  match t with
  | [] =>
    rw [skipTo_none (by simp [at?]), h.nil]
    simp
  | c :: t =>
    by_cases hc : c = '\\'
    · subst hc
      cases t with
      | nil =>
        have hat : at? (pre ++ encode ['\\']) pre.length = some '\\' := at?_append pre 0x5C []
        have hlength : (pre ++ encode ['\\']).length = pre.length + byteLength ['\\'] := by simp
        rw [skipTo_some hat, if_pos rfl, skipTo_none (by simp [at?]; decide), h.lone, hlength]
      | cons d t =>
        have hrest := h.skipTo_encode (pre ++ encode ['\\', d]) t
        rw [skipTo_escape h.beyond, h.escape]
        simpa [Nat.add_assoc] using hrest
    · cases hends : ends c with
      | some n =>
        have hascii : isBeyondAscii c = false := Bool.eq_false_iff.mpr fun hhigh => by
          simp [h.beyond c hhigh] at hends
        have hat := (at?_eq_some_iff pre (c :: t) hascii).mpr rfl
        rw [skipTo_some hat, if_neg hc, hends, h.stop c n t hc hends]
        rfl
      | none =>
        have hrest := h.skipTo_encode (pre ++ String.utf8EncodeChar c) t
        rw [skipTo_char h.beyond _ _ hc hends, h.pass c t hc hends]
        simpa [Nat.add_assoc] using hrest
termination_by t.length

theorem splitLiteral_cons {q c : Char} {t : List Char} (h : c ≠ '\\') :
    splitLiteral q (c :: t) = if c = '\n' then ([], c :: t) else if c = q then ([c], t)
      else (splitLiteral q t).map (c :: ·) id := by
  rw [splitLiteral]
  simp [h]

theorem splitTemplate_cons {c : Char} {t : List Char} (h : c ≠ '\\') :
    splitTemplate (c :: t) = if c = backtick then ([c], t)
      else (splitTemplate t).map (c :: ·) id := by
  rw [splitTemplate]
  simp [h]

theorem ascii_of_isQuote {c : Char} (h : isQuote c) : isBeyondAscii c = false ∧ c ≠ '.' := by
  simp only [isQuote, Bool.or_eq_true, beq_iff_eq] at h
  rcases h with rfl | rfl <;> decide

theorem skipLiteral_encode {q : Char} (hq : isQuote q) (pre : List UInt8) (t : List Char) :
    skipLiteral q (pre ++ encode t) pre.length = pre.length + byteLength (splitLiteral q t).1 := by
  have hascii := (ascii_of_isQuote hq).1
  have hback : '\\' ≠ q := (not_backslash_of_isQuote hq).symm
  refine Passes.skipTo_encode (f := fun t => (splitLiteral q t).1) ⟨?_, ?_, ?_, ?_, ?_, ?_⟩ pre t
  · intro d hd
    rw [if_neg (ne_of_beyond hd (by decide)), if_neg (ne_of_beyond hd hascii)]
  · rfl
  · simp [splitLiteral, hback]
  · intro c t
    simp [splitLiteral]
  · intro c n t hc hends
    rw [splitLiteral_cons hc]
    split_ifs at hends ⊢ with hfeed hquote
    · simpa using hends
    · simpa [hquote, utf8Size_of_ascii hascii] using hends
  · intro c t hc hends
    rw [splitLiteral_cons hc]
    split_ifs at hends ⊢ with hfeed hquote
    rfl

theorem skipTemplate_encode (pre : List UInt8) (t : List Char) :
    skipTemplate (pre ++ encode t) pre.length = pre.length + byteLength (splitTemplate t).1 := by
  refine Passes.skipTo_encode (f := fun t => (splitTemplate t).1) ⟨?_, ?_, ?_, ?_, ?_, ?_⟩ pre t
  · intro d hd
    rw [if_neg (ne_of_beyond hd (by decide))]
  · rfl
  · decide
  · intro c t
    simp [splitTemplate]
  · intro c n t hc hends
    rw [splitTemplate_cons hc]
    split_ifs at hends ⊢ with htick
    simpa [htick, utf8Size_of_ascii (show isBeyondAscii backtick = false by decide)] using hends
  · intro c t hc hends
    rw [splitTemplate_cons hc]
    split_ifs at hends ⊢ with htick
    rfl

theorem skipBlock_none {bs : List UInt8} {i : Nat} (h : at? bs i = none) :
    skipBlock bs i = bs.length := by
  rw [skipBlock, h]

theorem skipBlock_end {bs : List UInt8} {i : Nat} (h : at? bs i = some '*')
    (hnext : at? bs (i + 1) = some '/') : skipBlock bs i = i + 2 := by
  rw [skipBlock, h, hnext]
  simp

theorem skipBlock_some {bs : List UInt8} {i : Nat} {c : Char} (h : at? bs i = some c)
    (hnext : ¬ (c = '*' ∧ at? bs (i + 1) = some '/')) : skipBlock bs i = skipBlock bs (i + 1) := by
  cases hd : at? bs (i + 1) with
  | none =>
    rw [skipBlock_none hd, skipBlock, h, hd]
  | some d =>
    rw [skipBlock, h, hd]
    simp only [hd, Option.some_inj] at hnext
    simp [hnext]

theorem skipBlock_pass (pre mid post : List UInt8) (h : ∀ b ∈ mid, Char.ofUInt8 b ≠ '*') :
    skipBlock (pre ++ (mid ++ post)) pre.length =
      skipBlock (pre ++ (mid ++ post)) (pre ++ mid).length := by
  induction mid generalizing pre with
  | nil => simp
  | cons b mid ih =>
    have hb := h b List.mem_cons_self
    have hrest := ih (pre ++ [b]) fun x hx => h x (List.mem_cons_of_mem _ hx)
    rw [List.cons_append, skipBlock_some (at?_append pre b (mid ++ post)) (by simp [hb])]
    simpa using hrest

theorem skipBlock_encode (pre : List UInt8) (t : List Char) :
    skipBlock (pre ++ encode t) pre.length = pre.length + byteLength (splitBlock t).1 := by
  fun_induction splitBlock t generalizing pre with
  | case1 =>
    rw [skipBlock_none (by simp [at?])]
    simp
  | case2 cs =>
    have hstar : at? (pre ++ encode ('*' :: '/' :: cs)) pre.length = some '*' :=
      (at?_eq_some_iff _ _ (by decide)).mpr rfl
    rw [skipBlock_end hstar ((at?_next_iff _ _ (by decide) (by decide)).mpr rfl)]
    rfl
  | case3 c cs h ih =>
    have hrest := ih (pre ++ String.utf8EncodeChar c)
    have hpass : skipBlock (pre ++ encode (c :: cs)) pre.length =
        skipBlock (pre ++ encode (c :: cs)) (pre ++ String.utf8EncodeChar c).length := by
      by_cases hc : c = '*'
      · subst hc
        have hstar : at? (pre ++ encode ('*' :: cs)) pre.length = some '*' :=
          (at?_eq_some_iff _ _ (by decide)).mpr rfl
        have hnext : ¬ at? (pre ++ encode ('*' :: cs)) (pre.length + 1) = some '/' := by
          rw [at?_next_iff _ _ (by decide) (by decide)]
          intro hhead
          obtain ⟨rest, hrest⟩ := List.head?_eq_some_iff.mp hhead
          exact h rest rfl hrest
        rw [skipBlock_some hstar fun hslash => hnext hslash.2, List.length_append]
        rfl
      · refine skipBlock_pass pre _ _ fun b hb => ?_
        have hlead : Leads (Char.ofUInt8 b) c := ⟨b, hb, rfl⟩
        rwa [Ne, hlead.eq_iff (by decide)]
    rw [hpass]
    simpa [Nat.add_assoc] using hrest

/-! ## Endings -/

/-- How an ending closes the literal whose path stops at `stop`. -/
def closingOf (stop : Nat) : Ending → Closing
  | .matched => .matched
  | .missing _ => .missing
  | .mismatched before _ => .mismatched (stop + byteLength before)
  | .irregular _ => .irregular
  | .ambiguous _ => .ambiguous

theorem utf8Size_quote (q : Quote) : q.char.utf8Size = 1 := by cases q <;> decide

theorem isBeyondAscii_quote (q : Quote) : isBeyondAscii q.char = false := by cases q <;> decide

theorem isBlank_quote (q : Quote) : isBlank q.char = false := by cases q <;> decide

/-- Trimming cuts blanks off both ends. -/
theorem exists_trim (t : List Char) : ∃ l r, t = l ++ (trim t ++ r) ∧ trimLeft t = trim t ++ r ∧
    (∀ c ∈ l, isBlank c) ∧ ∀ c ∈ r, isBlank c := by
  have hleft : trimLeft t = trim t ++ ((trimLeft t).reverse.takeWhile isBlank).reverse := by
    rw [trim, ← List.reverse_append]
    exact (congrArg List.reverse List.takeWhile_append_dropWhile).trans
      (List.reverse_reverse _) |>.symm
  refine ⟨t.takeWhile isBlank, ((trimLeft t).reverse.takeWhile isBlank).reverse, ?_, hleft,
    fun c hc => of_mem_takeWhile hc, fun c hc => of_mem_takeWhile (List.mem_reverse.mp hc)⟩
  rw [← hleft]
  exact List.takeWhile_append_dropWhile.symm

theorem trimLeft_append {l : List Char} (hl : ∀ c ∈ l, isBlank c) {d : Char}
    (hd : isBlank d = false) (r : List Char) : trimLeft (l ++ d :: r) = d :: r := by
  rw [trimLeft, List.dropWhile_append_of_pos hl]
  simp [hd]

theorem not_mem_before (c : Char) (t : List Char) : c ∉ before c t := fun h => by
  simpa using of_mem_takeWhile h

theorem before_append {c : Char} {l : List Char} (hl : c ∉ l) (r : List Char) :
    before c (l ++ c :: r) = l ∧ after c (l ++ c :: r) = r := by
  have hne : ∀ d ∈ l, (d != c) = true := fun d hd => by
    rw [bne_iff_ne]
    rintro rfl
    exact hl hd
  have hstop : ∀ d, (c :: r).head? = some d → (d != c) = false := by simp
  rw [before, after, takeWhile_append_stop hne hstop, dropWhile_append_stop hne hstop]
  exact ⟨rfl, rfl⟩

theorem before_statementRest {c : Char} {t : List Char} (h : c ∈ statementRest t) :
    before c (statementRest t) = before c t := by
  have hsplit := before_append_after h
  have htext : t = before c (statementRest t) ++
      c :: (after c (statementRest t) ++ afterStatement t) := by
    conv => lhs; rw [← statementRest_append t, ← hsplit]
    simp
  conv => rhs; rw [htext]
  rw [(before_append (not_mem_before c _) _).1]

/-- A quote with only blanks around it is what trimming leaves. -/
theorem isStray_iff {q : Quote} {rest : List Char} (h : q.opposite.char ∈ rest) :
    isStray q rest ↔ byteLength (trim rest) = 1 ∧ (trim rest).head? = some q.opposite.char := by
  have hblank := isBlank_quote q.opposite
  constructor
  · intro hstray
    simp only [isStray, Bool.and_eq_true, List.all_eq_true] at hstray
    have htrim : trim rest = [q.opposite.char] := by
      rw [← before_append_after h, trim, trimLeft_append hstray.1 hblank, List.reverse_cons,
        trimLeft_append (fun c hc => hstray.2 c (List.mem_reverse.mp hc)) hblank]
      rfl
    simp [htrim, utf8Size_quote]
  · intro ⟨hlength, hhead⟩
    obtain ⟨tail, htrim⟩ := List.head?_eq_some_iff.mp hhead
    have htail : tail = [] := by
      cases tail with
      | nil => rfl
      | cons d tail =>
        have := d.utf8Size_pos
        simp [htrim, utf8Size_quote] at hlength
        omega
    obtain ⟨l, r, hrest, -, hl, hr⟩ := exists_trim rest
    rw [htrim, htail] at hrest
    have hnot : q.opposite.char ∉ l := fun hmem => by simp [hl _ hmem] at hblank
    rw [isStray, hrest, List.singleton_append, (before_append hnot r).1, (before_append hnot r).2]
    simpa using ⟨hl, hr⟩

theorem byteLength_before {q : Quote} {rest : List Char} (h : q.opposite.char ∈ rest)
    (hstray : isStray q rest) :
    byteLength rest - byteLength (trimLeft rest) = byteLength (before q.opposite.char rest) := by
  simp only [isStray, Bool.and_eq_true, List.all_eq_true] at hstray
  have hleft : trimLeft rest = q.opposite.char :: after q.opposite.char rest := by
    conv => lhs; rw [← before_append_after h]
    exact trimLeft_append hstray.1 (isBlank_quote q.opposite) _
  have hlength := congrArg byteLength (before_append_after h)
  rw [byteLength_append, ← hleft] at hlength
  omega

/-- The bytes up to the end of the statement tell how a literal ends as its characters do. -/
theorem close_eq (q : Quote) (t : List Char) (stop : Nat) {closes : Bool}
    (hcloses : closes ↔ t.head? = some q.char) :
    close q stop (stop + byteLength (statementRest t)) closes (statementRest t) =
      (closingOf stop (readEnding q t).1, stop + byteLength ((readEnding q t).1.text q)) := by
  unfold close
  refine readEnding_cases q t ?_ ?_ ?_ ?_ ?_
  · intro h
    simp [hcloses.mpr h, closingOf, Ending.text, utf8Size_quote]
  · intro h hq
    rw [if_neg (by simp [hcloses, h]), if_neg (by simp [any_isQuote_of_mem hq]), if_pos hq,
      before_statementRest hq]
    simp [closingOf, Ending.text, utf8Size_quote, Nat.add_assoc]
  · intro h hany
    rw [if_neg (by simp [hcloses, h]), if_pos (by simp [hany])]
    rfl
  · intro h hany hq hstray
    have hmem := opposite_mem_of_isQuote hany hq
    rw [if_neg (by simp [hcloses, h]), if_neg (by simp [hany]), if_neg hq,
      if_pos ((isStray_iff hmem).mp hstray), byteLength_before hmem hstray, closingOf, Ending.text,
      before_append_after hmem]
  · intro h hany hq hstray
    have hmem := opposite_mem_of_isQuote hany hq
    have hnot : ¬ (byteLength (trim (statementRest t)) = 1 ∧
        (trim (statementRest t)).head? = some q.opposite.char) := by
      rw [← isStray_iff hmem]
      simp [hstray]
    rw [if_neg (by simp [hcloses, h]), if_neg (by simp [hany]), if_neg hq, if_neg hnot]
    rfl

/-! ## Clauses -/

/-- The clause at a site, by offsets. -/
def tokenOf (s : Site) : Token where
  keyword := s.offsets.keyword
  quote := s.clause.quote
  start := s.offsets.start
  stop := s.offsets.stop
  path := s.clause.path
  closing := closingOf s.offsets.stop s.clause.ending
  finish := s.offsets.finish

theorem bytewise_or {p q : Char → Bool} (hp : Bytewise p) (hq : Bytewise q) :
    Bytewise fun c => p c || q c := fun c d hc hd => by simp only [hp c d hc hd, hq c d hc hd]

theorem bytewise_of_beyond {p : Char → Bool} (h : ∀ c, isBeyondAscii c → p c) : Bytewise p :=
  fun c d hc hd => (h c hc).trans (h d hd).symm

theorem bytewise_isGap : Bytewise isGap :=
  bytewise_or (bytewise_eq (by decide)) (bytewise_eq (by decide))

theorem bytewise_isQuote : Bytewise isQuote :=
  bytewise_or (bytewise_eq (by decide)) (bytewise_eq (by decide))

theorem bytewise_isTerminator : Bytewise isTerminator :=
  bytewise_or (bytewise_or (bytewise_eq (by decide)) (bytewise_eq (by decide)))
    (bytewise_eq (by decide))

theorem bytewise_isWordStart : Bytewise isWordStart :=
  bytewise_of_beyond fun c hc => by simp [isWordStart, hc]

theorem bytewise_isWordChar : Bytewise isWordChar :=
  bytewise_of_beyond fun c hc => by simp [isWordChar, isWordStart, hc]

theorem bytewise_isPathChar : Bytewise isPathChar :=
  bytewise_of_beyond fun c hc => by simp [isPathChar, hc]

theorem Leads.ofChar? {c' c : Char} (h : Leads c' c) : Quote.ofChar? c' = Quote.ofChar? c := by
  simp only [Quote.ofChar?, h.eq_iff (show isBeyondAscii '"' = false by decide),
    h.eq_iff (show isBeyondAscii '\'' = false by decide)]

section Reading

variable {text : String} {u : List Char}

theorem readPath?_split (keyword : Nat) (q : Quote) {t : List Char} (h : text.toList = u ++ t) :
    let path := t.takeWhile isPathChar
    let ending := (readEnding q (t.dropWhile isPathChar)).1
    let stop := byteLength u + byteLength path
    readPath? text keyword q (byteLength u) = some {
      keyword, quote := q, start := byteLength u, stop, path, closing := closingOf stop ending
      finish := stop + byteLength (ending.text q) } := by
  intro path ending stop
  have hpath : t = path ++ t.dropWhile isPathChar := List.takeWhile_append_dropWhile.symm
  have hrest : t.dropWhile isPathChar = statementRest (t.dropWhile isPathChar) ++
      afterStatement (t.dropWhile isPathChar) := (statementRest_append _).symm
  have hsplit : text.toList = (u ++ path) ++ t.dropWhile isPathChar := by
    rw [List.append_assoc, ← hpath, h]
  have hstop : skipWhile isPathChar (bytes text) (byteLength u) = stop :=
    skipWhile_split bytewise_isPathChar h
  have hend : position? isTerminator (bytes text) stop =
      some (stop + byteLength (statementRest (t.dropWhile isPathChar))) := by
    have hposition := position?_split bytewise_isTerminator hsplit
    rwa [byteLength_append] at hposition
  have hcut : cut? text stop (stop + byteLength (statementRest (t.dropWhile isPathChar))) =
      some (statementRest (t.dropWhile isPathChar)) := by
    simpa using cut?_of_split (hsplit.trans (congrArg (u ++ path ++ ·) hrest))
  have hcutPath : cut? text (byteLength u) stop = some path :=
    cut?_of_split (h.trans (congrArg (u ++ ·) hpath))
  have hcloses : (at? (bytes text) stop == some q.char) = true ↔
      (t.dropWhile isPathChar).head? = some q.char := by
    have := at?_eq_some_iff (encode (u ++ path)) (t.dropWhile isPathChar) (isBeyondAscii_quote q)
    rw [← bytes_split hsplit, length_encode, byteLength_append] at this
    simpa using this
  simp only [readPath?, hstop, hend, hcut, hcutPath, Option.bind_eq_bind, Option.bind_some,
    close_eq q _ stop hcloses]
  rfl

theorem readClause?_split {t : List Char} (h : text.toList = u ++ (Clause.keyword ++ t)) :
    readClause? text (byteLength u) (byteLength (u ++ Clause.keyword)) =
      some ((Relocate.readClause? t).map fun r =>
        tokenOf ⟨⟨u.reverse, Clause.keyword ++ t⟩, r.1⟩) := by
  have hgap : text.toList = (u ++ Clause.keyword ++ t.takeWhile isGap) ++ t.dropWhile isGap := by
    simp [h]
  have hopening : skipWhile isGap (bytes text) (byteLength (u ++ Clause.keyword)) =
      byteLength (u ++ Clause.keyword ++ t.takeWhile isGap) := by
    rw [skipWhile_split bytewise_isGap (by simpa using h), ← byteLength_append]
  simp only [readClause?, hopening, Relocate.readClause?]
  cases hrest : t.dropWhile isGap with
  | nil =>
    rw [hrest, List.append_nil] at hgap
    simp only [at?_split_nil hgap, Option.bind_none, Option.map_none]
  | cons c cs =>
    rw [hrest] at hgap
    obtain ⟨c', hlead, hat⟩ := at?_split_cons hgap
    rw [hat, Option.bind_some, hlead.ofChar?]
    cases hquote : Quote.ofChar? c with
    | none => simp [hquote]
    | some q =>
      obtain rfl := Quote.ofChar?_eq_some_iff.mp hquote
      have hpath := readPath?_split (byteLength u) q
        (show text.toList = (u ++ Clause.keyword ++ t.takeWhile isGap ++ [q.char]) ++ cs by
          simpa using hgap)
      have hstart : byteLength (u ++ Clause.keyword ++ t.takeWhile isGap) + 1 =
          byteLength (u ++ Clause.keyword ++ t.takeWhile isGap ++ [q.char]) := by
        simp [utf8Size_quote, Nat.add_assoc]
      simp only [hstart, hpath, Option.map_some, Quote.ofChar?_char]
      simp [tokenOf, Site.offsets, Cursor.offset, Clause.opening, Nat.add_assoc]

/-! ## Steps -/

/-- What a piece at a place is as a token. -/
def tokenAt? (cursor : Cursor) : Piece → Option Token
  | .plain _ => none
  | .clause c => some (tokenOf ⟨cursor, c⟩)

/-- The step over a piece that starts behind `u`. -/
def stepOver (u : List Char) (p : Piece) (rest : List Char) (last : Option Char) : Step :=
  ⟨tokenAt? ⟨u.reverse, p.text ++ rest⟩ p, last, byteLength u + byteLength p.text⟩

theorem finish_tokenOf (cursor : Cursor) (c : Clause) :
    (tokenOf ⟨cursor, c⟩).finish = cursor.offset + byteLength c.text := by
  simp [tokenOf, Site.offsets, Clause.text, Clause.head, Nat.add_assoc]

theorem encode_inj {s t : List Char} (h : encode s = encode t) : s = t := by
  have hbytes : (String.ofList s).toByteArray = (String.ofList t).toByteArray := by
    rw [toByteArray_eq, toByteArray_eq, String.toList_ofList, String.toList_ofList, h]
  simpa using congrArg String.toList (String.toByteArray_inj.mp hbytes)

/-- The last byte of a word is no dot. -/
theorem at?_word_ne {v : List Char} (h : text.toList = u ++ v)
    (hword : v.takeWhile isWordChar ≠ []) :
    at? (bytes text) (byteLength u + byteLength (v.takeWhile isWordChar) - 1) ≠ some '.' := by
  intro hat
  have hpos : 0 < (encode (v.takeWhile isWordChar)).length := by
    obtain ⟨c, cs, hcs⟩ := List.exists_cons_of_ne_nil hword
    have := c.utf8Size_pos
    rw [hcs]
    simp
    omega
  rw [length_encode] at hpos
  have hsplit : bytes text = encode u ++
      (encode (v.takeWhile isWordChar) ++ encode (v.dropWhile isWordChar)) := by
    rw [← encode_append, List.takeWhile_append_dropWhile, bytes_split h]
  obtain ⟨b, hget, hchar⟩ := Option.map_eq_some_iff.mp hat
  rw [hsplit, List.getElem?_append_right (by simp; omega), List.getElem?_append_left (by simp; omega)]
    at hget
  have hmem := List.mem_of_getElem? hget
  rw [← takeWhile_encode bytewise_isWordChar] at hmem
  have hb := List.all_eq_true.mp List.all_takeWhile b hmem
  simp only [hchar] at hb
  exact absurd hb (by decide)

theorem wordStep?_split {last : Option Char} {afterDot : Bool} {c : Char} {cs : List Char}
    (h : text.toList = u ++ c :: cs) (hdot : last = some '.' ↔ afterDot) (hc : isWordStart c) :
    ∃ last', wordStep? text last (byteLength u) = some (stepOver u
      (stepWord afterDot (c :: cs)).piece (stepWord afterDot (c :: cs)).rest last') ∧
        (last' = some '.' ↔ (stepWord afterDot (c :: cs)).afterDot) := by
  have hnil : (c :: cs).takeWhile isWordChar ≠ [] := by simp [isWordChar, hc]
  have hplain := at?_word_ne h hnil
  have hstop := skipWhile_split bytewise_isWordChar h
  have hspelled : ((bytes text).drop (byteLength u)).take
      (byteLength u + byteLength ((c :: cs).takeWhile isWordChar) - byteLength u) =
        encode ((c :: cs).takeWhile isWordChar) := by
    have hbytes : encode (c :: cs) = encode ((c :: cs).takeWhile isWordChar) ++
        encode ((c :: cs).dropWhile isWordChar) := by
      rw [← encode_append, List.takeWhile_append_dropWhile]
    rw [drop_split h, Nat.add_sub_cancel_left, hbytes]
    exact List.take_left' (length_encode _)
  have hword : c :: cs = (c :: cs).takeWhile isWordChar ++ (c :: cs).dropWhile isWordChar :=
    List.takeWhile_append_dropWhile.symm
  simp only [wordStep?, stepWord, hstop, hspelled]
  generalize (c :: cs).takeWhile isWordChar = word at hplain hword
  generalize (c :: cs).dropWhile isWordChar = rest at hword
  have hiff : encode word = encode Clause.keyword ∧ last ≠ some '.' ↔
      word = Clause.keyword ∧ ¬ afterDot := by
    rw [Ne, hdot]
    exact and_congr_left fun _ => ⟨encode_inj, congrArg encode⟩
  simp only [hiff]
  split
  · rename_i hkey
    obtain ⟨rfl, -⟩ := hkey
    have hclause := readClause?_split (h.trans (congrArg (u ++ ·) hword))
    rw [byteLength_append] at hclause
    simp only [hclause]
    cases hread : Relocate.readClause? rest with
    | none => exact ⟨_, rfl, by simp [hplain]⟩
    | some r =>
      refine ⟨some '"', ?_, by simp⟩
      simp [stepOver, tokenAt?, Piece.text, readClause?_append hread, finish_tokenOf, Cursor.offset]
  · exact ⟨_, rfl, by simp [hplain]⟩

theorem step?_split {last : Option Char} {afterDot : Bool} {c' c : Char} {cs : List Char}
    (h : text.toList = u ++ c :: cs) (hdot : last = some '.' ↔ afterDot) (hlead : Leads c' c) :
    ∃ last', step? text last (byteLength u) c' = some (stepOver u
      (scanStep afterDot c cs).piece (scanStep afterDot c cs).rest last') ∧
        (last' = some '.' ↔ (scanStep afterDot c cs).afterDot) := by
  have hnext : ∀ d, isBeyondAscii d = false → c = '/' →
      (at? (bytes text) (byteLength u + 1) = some d ↔ cs.head? = some d) := by
    intro d hd hc
    rw [bytes_split h, ← length_encode u]
    exact at?_next_iff (encode u) cs (by rw [hc]; decide) hd
  have hslash : c' = '/' ↔ c = '/' := hlead.eq_iff (by decide)
  have htick : c' = backtick ↔ c = backtick := hlead.eq_iff (by decide)
  have hquote : isQuote c' = isQuote c := hlead.test bytewise_isQuote
  have hstart : isWordStart c' = isWordStart c := hlead.test bytewise_isWordStart
  have hline : (c' = '/' ∧ at? (bytes text) (byteLength u + 1) = some '/') ↔
      c = '/' ∧ cs.head? = some '/' := by
    rw [hslash]
    exact and_congr_right (hnext '/' (by decide))
  have hblock : (c' = '/' ∧ at? (bytes text) (byteLength u + 1) = some '*') ↔
      c = '/' ∧ cs.head? = some '*' := by
    rw [hslash]
    exact and_congr_right (hnext '*' (by decide))
  have hascii : isBeyondAscii c = false → c' = c := fun hc => (hlead.eq_iff hc).mpr rfl
  have hone : isBeyondAscii c = false → text.toList = (u ++ [c]) ++ cs ∧
      byteLength u + 1 = (encode (u ++ [c])).length := fun hc => by
    simp [h, utf8Size_of_ascii hc]
  simp only [step?, scanStep, hline, hblock, hquote, htick, hstart]
  split
  · rw [position?_split (bytewise_eq (by decide)) h]
    exact ⟨last, rfl, hdot⟩
  split
  · rename_i hcomment
    obtain ⟨rfl, hhead⟩ := hcomment
    obtain ⟨rest, rfl⟩ := List.head?_eq_some_iff.mp hhead
    refine ⟨last, ?_, hdot⟩
    have hskip := skipBlock_encode (encode (u ++ ['/', '*'])) rest
    rw [← bytes_split (by simpa using h), length_encode, byteLength_append] at hskip
    rw [show byteLength u + 2 = byteLength u + byteLength ['/', '*'] from rfl, hskip]
    simp [stepOver, tokenAt?, Piece.text, Nat.add_assoc]
  split
  · rename_i hq
    obtain ⟨hc, hne⟩ := ascii_of_isQuote hq
    obtain ⟨hsplit, hlength⟩ := hone hc
    have hskip := skipLiteral_encode hq (encode (u ++ [c])) cs
    rw [← bytes_split hsplit, ← hlength] at hskip
    rw [hascii hc, hskip]
    refine ⟨some c, ?_, by simp [hne]⟩
    simp [stepOver, tokenAt?, Piece.text, utf8Size_of_ascii hc, Nat.add_assoc]
  split
  · rename_i htick
    have hc : isBeyondAscii c = false := by rw [htick]; decide
    obtain ⟨hsplit, hlength⟩ := hone hc
    have hskip := skipTemplate_encode (encode (u ++ [c])) cs
    rw [← bytes_split hsplit, ← hlength] at hskip
    rw [hascii hc, hskip]
    refine ⟨some c, ?_, by simp [htick, backtick]⟩
    simp [stepOver, tokenAt?, Piece.text, utf8Size_of_ascii hc, Nat.add_assoc]
  split
  · rename_i hword
    exact wordStep?_split h hdot hword
  · rename_i hword
    have hc : isBeyondAscii c = false := Bool.eq_false_iff.mpr fun hc => by
      simp [isWordStart, hc] at hword
    rw [hascii hc]
    refine ⟨if isAsciiBlank c then last else some c, ?_, ?_⟩
    · simp [stepOver, tokenAt?, Piece.text, utf8Size_of_ascii hc]
    · cases isAsciiBlank c with
      | true => exact hdot
      | false => simp

theorem sitesFrom_plain (u t rest : List Char) (ps : List Piece) :
    sitesFrom ⟨u.reverse, t ++ rest⟩ (.plain t :: ps) = sitesFrom ⟨(u ++ t).reverse, rest⟩ ps := by
  simp [sitesFrom, Cursor.move]

theorem sitesFrom_clause (u rest : List Char) (c : Clause) (ps : List Piece) :
    sitesFrom ⟨u.reverse, c.text ++ rest⟩ (.clause c :: ps) =
      ⟨⟨u.reverse, c.text ++ rest⟩, c⟩ :: sitesFrom ⟨(u ++ c.text).reverse, rest⟩ ps := by
  simp [sitesFrom, Cursor.move]

theorem tokensFrom?_split {last : Option Char} {afterDot : Bool} {t : List Char}
    (h : text.toList = u ++ t) (hdot : last = some '.' ↔ afterDot) :
    tokensFrom? text last (byteLength u) =
      some ((sitesFrom ⟨u.reverse, t⟩ (scanFrom afterDot t)).map tokenOf) := by
  induction afterDot, t using scan_induction generalizing u last with
  | nil d =>
    rw [tokensFrom?, at?_split_nil (by simpa using h), scanFrom]
    rfl
  | take d p d' rest hp ih =>
    rw [hp.scanFrom_eq]
    obtain ⟨c, cs, hcons, hscan⟩ := hp
    obtain ⟨c', hlead, hat⟩ := at?_split_cons (h.trans (congrArg (u ++ ·) hcons))
    obtain ⟨last', hstep, hdot'⟩ := step?_split (h.trans (congrArg (u ++ ·) hcons)) hdot hlead
    rw [hscan] at hstep hdot'
    have hpos : 0 < byteLength p.text := by
      have hne := scanStep_text_ne_nil d c cs
      rw [hscan] at hne
      obtain ⟨x, xs, hx⟩ := List.exists_cons_of_ne_nil hne
      have := x.utf8Size_pos
      rw [hx, byteLength_cons]
      omega
    have hrest := ih (u := u ++ p.text) (by simpa using h) hdot'
    rw [tokensFrom?, hat]
    simp only [hstep, stepOver, Nat.lt_add_right_iff_pos, hpos, if_true]
    rw [byteLength_append] at hrest
    rw [hrest]
    cases p with
    | plain t => rw [Piece.text, sitesFrom_plain]; rfl
    | clause c => rw [Piece.text, sitesFrom_clause]; rfl

end Reading

/-- Every text is read to its end, and the clauses found are its sites. -/
theorem tokens?_eq (text : String) : tokens? text = some ((sites text.toList).map tokenOf) := by
  rw [tokens?, sites, scan]
  exact tokensFrom?_split (u := []) rfl (by simp)

end Relocate.Bytes
