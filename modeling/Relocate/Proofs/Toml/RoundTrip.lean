import Mathlib.Data.List.TakeWhile
import Relocate.Proofs.Toml.Texts

/-!
# TOML documents read back

A written document is read back statement by statement: a header for each
section, and a setting for each of its rows (`read?_write`). A row's value may
be a truth value, a count of at most 63 bits, a text, or an array of those.
Reading is bounded by a number of steps; the length of the written text always
covers them, because every item, row and header takes a character at least.

* `tokenValue?_decimal`: a count is a token of its own, and neither a date nor a
  number with a fraction.
* `readValue?_writeValue`: a value, whichever layout its array has.
* `readStatement?_writeRow`, `readStatement?_header`: a line.
-/
namespace Relocate.Toml

open Text

/-- A value that stands on its own: a truth value, a count of at most 63 bits
or a text. -/
inductive IsScalar : Value → Prop where
  | bool (b : Bool) : IsScalar (.bool b)
  | count {n : Nat} (h : n < 2 ^ 63) : IsScalar (.int n)
  | str (s : String) : IsScalar (.str s)

/-- What a row may hold. -/
inductive IsSetting : Value → Prop where
  | scalar {v : Value} (h : IsScalar v) : IsSetting v
  | array {items : List Value} (h : ∀ v ∈ items, IsScalar v) : IsSetting (.array items)

/-! ## Numbers -/

theorem expect?_digits {c : Char} (hc : c.isDigit = false) {t : List Char}
    (h : ∀ d ∈ t, d.isDigit) : expect? c t = none := by
  cases t with
  | nil => rfl
  | cons d t =>
    have hd : d.isDigit := h d List.mem_cons_self
    have hne : c ≠ d := fun e => absurd (e ▸ hd) (by simp [hc])
    simp [expect?, hne]

/-- Digits alone are no first part of a date or time. -/
theorem readFixed?_expect? {c : Char} (hc : c.isDigit = false) {t : List Char}
    (h : ∀ d ∈ t, d.isDigit) {n : Nat} {r : Nat × List Char} (hr : readFixed? n t = some r) :
    expect? c r.2 = none := by
  unfold readFixed? at hr
  split at hr
  · obtain ⟨m, -, rfl⟩ := Option.map_eq_some_iff.1 hr
    exact expect?_digits hc fun d hd => h d (List.mem_of_mem_drop hd)
  · simp at hr

theorem isDateTime_digits {t : List Char} (h : ∀ d ∈ t, d.isDigit) : isDateTime t = false := by
  have hdate : skipDate? t = none := by
    rw [skipDate?]
    cases hr : readFixed? 4 t with
    | none => rfl
    | some r => simp [readFixed?_expect? (show ('-' : Char).isDigit = false by decide) h hr]
  have htime : skipTime? t = none := by
    rw [skipTime?]
    cases hr : readFixed? 2 t with
    | none => rfl
    | some r => simp [readFixed?_expect? (show (':' : Char).isDigit = false by decide) h hr]
  rw [isDateTime, hdate, htime]
  rfl

theorem groupDigits?_digits {t : List Char} (hne : t ≠ []) (h : ∀ d ∈ t, d.isDigit) :
    groupDigits? Char.isDigit t = some t := by
  induction t with
  | nil => exact absurd rfl hne
  | cons c t ih =>
    have hc : c.isDigit := h c List.mem_cons_self
    cases t with
    | nil => simp [groupDigits?, hc]
    | cons d t =>
      have hd : d ≠ '_' := by
        rintro rfl
        exact absurd (h '_' (by simp)) (by decide)
      have hrest := ih (by simp) fun e he => h e (List.mem_cons_of_mem _ he)
      rw [groupDigits?, if_pos hc, hrest]
      · rfl
      · exact List.cons_ne_nil d t
      · exact fun u hu => hd (List.cons.inj hu).1

theorem splitSign_digits {t : List Char} (h : ∀ d ∈ t, d.isDigit) : splitSign t = (false, t) := by
  rw [splitSign.eq_def]
  split
  · exact absurd (h '-' List.mem_cons_self) (by decide)
  · exact absurd (h '+' List.mem_cons_self) (by decide)
  · rfl

theorem wholeDigits?_decimal (n : Nat) : wholeDigits? (decimal n) = some (decimal n) := by
  rw [wholeDigits?, groupDigits?_digits (decimal_ne_nil n) fun d hd => isDigit_of_mem_decimal hd,
    Option.bind_some, if_neg (not_needless_zero n)]

/-- A number with a fraction or an exponent does not end with its whole part. -/
theorem readReal?_decimal (n : Nat) : readReal? (decimal n) = none := by
  have hdigits : ∀ d ∈ decimal n, d.isDigit := fun d hd => isDigit_of_mem_decimal hd
  have hinf : decimal n ≠ "inf".toList := fun e =>
    absurd (hdigits 'i' (by rw [e]; decide)) (by decide)
  have hnan : decimal n ≠ "nan".toList := fun e =>
    absurd (hdigits 'n' (by rw [e]; decide)) (by decide)
  have hgrouped : ∀ d ∈ decimal n, isGrouped d := fun d hd => by simp [isGrouped, hdigits d hd]
  have htake : (decimal n).takeWhile isGrouped = decimal n :=
    List.takeWhile_eq_self_iff.2 hgrouped
  have hdrop : (decimal n).dropWhile isGrouped = [] := List.dropWhile_eq_nil_iff.2 hgrouped
  rw [readReal?, splitSign_digits hdigits]
  simp only [hinf, hnan, or_self, if_false, htake, hdrop, wholeDigits?_decimal, readTail?,
    Option.bind_eq_bind, Option.bind_some, Option.bind_none]

theorem fits_of_lt {n : Nat} (h : n < 2 ^ 63) : fits n := by
  simp only [fits, Bool.and_eq_true, decide_eq_true_eq]
  omega

theorem readInt?_decimal {n : Nat} (h : n < 2 ^ 63) : readInt? (decimal n) = some (.int n) := by
  have hdigits : ∀ d ∈ decimal n, d.isDigit := fun d hd => isDigit_of_mem_decimal hd
  have hbase : ∀ l u, l.isDigit = false → decimal n ≠ '0' :: l :: u := fun l u hl e =>
    absurd (hdigits l (by simp [e])) (by simp [hl])
  have hread : readInt? (decimal n) = (wholeDigits? (decimal n)).bind fun digits =>
      (number? 10 digits).bind fun m => if fits m then some (.int m) else none := by
    rw [readInt?, splitSign_digits hdigits]
    · rfl
    · exact fun u => hbase 'x' u (by decide)
    · exact fun u => hbase 'o' u (by decide)
    · exact fun u => hbase 'b' u (by decide)
  rw [hread, wholeDigits?_decimal, Option.bind_some, number?_decimal, Option.bind_some,
    if_pos (fits_of_lt h)]

theorem tokenValue?_decimal {n : Nat} (h : n < 2 ^ 63) :
    tokenValue? (decimal n) = some (.int n) := by
  have hdigits : ∀ d ∈ decimal n, d.isDigit := fun d hd => isDigit_of_mem_decimal hd
  have htrue : decimal n ≠ "true".toList := fun e =>
    absurd (hdigits 't' (by rw [e]; decide)) (by decide)
  have hfalse : decimal n ≠ "false".toList := fun e =>
    absurd (hdigits 'f' (by rw [e]; decide)) (by decide)
  rw [tokenValue?, if_neg htrue, if_neg hfalse, isDateTime_digits hdigits, readReal?_decimal,
    readInt?_decimal h]
  rfl

theorem isTokenChar_of_isDigit {c : Char} (h : c.isDigit) : isTokenChar c := by
  simp [isTokenChar, Char.isAlphanum, h]

theorem splitToken_append {s t : List Char} (h : ∀ c ∈ s, isTokenChar c) (ht : Ends t) :
    splitToken (s ++ t) = (s, t) := by
  obtain ⟨c, hc, hhead⟩ := ht
  obtain ⟨u, rfl⟩ : ∃ u, t = c :: u := by
    cases t with
    | nil => simp at hhead
    | cons d u => exact ⟨u, by simp_all⟩
  have hstop : isTokenChar c = false ∧ c ≠ ' ' := by
    simp only [List.mem_cons, List.not_mem_nil, or_false] at hc
    rcases hc with rfl | rfl | rfl <;> decide
  simp [splitToken, List.takeWhile_append_of_pos h, List.dropWhile_append_of_pos h, hstop]

/-! ## Values -/

/-- A character that is neither white space nor a line end and starts no
comment. -/
def isInk (c : Char) : Bool := !isWhite c && c != '\n' && c != '\r' && c != '#'

/-- A class of characters that has no white space, line end or comment sign. -/
theorem isInk_of_class {f : Char → Bool} {c : Char} (hc : f c)
    (hf : [' ', '\t', '\n', '\r', '#'].all fun d => !f d) : isInk c := by
  have hne : ∀ d ∈ [' ', '\t', '\n', '\r', '#'], c ≠ d := by
    rintro d hd rfl
    have hd := List.all_eq_true.1 hf c hd
    simp [hc] at hd
  simp only [List.forall_mem_cons] at hne
  simp [isInk, isWhite, hne]

theorem skipTrivia?_ink {c : Char} (h : isInk c) (t : List Char) :
    skipTrivia? false (c :: t) = some (c :: t) := by
  simp only [isInk, Bool.and_eq_true, bne_iff_ne, Bool.not_eq_true'] at h
  obtain ⟨⟨⟨hwhite, hline⟩, hreturn⟩, hcomment⟩ := h
  rw [skipTrivia?]
  · simp [hwhite, hcomment]
  · exact hline
  · exact fun u hu => absurd hu hreturn

theorem skipWhite_ink {c : Char} (h : isInk c) (t : List Char) : skipWhite (c :: t) = c :: t := by
  simp only [isInk, Bool.and_eq_true, Bool.not_eq_true'] at h
  simp [skipWhite, h.1.1.1]

theorem exists_head_writeString (s : String) :
    ∃ c t, writeString s = c :: t ∧ (c = '"' ∨ c = '\'') := by
  simp only [writeString]
  split
  · exact ⟨'"', _, rfl, .inl rfl⟩
  · exact ⟨'\'', _, rfl, .inr rfl⟩
  · exact ⟨'"', _, rfl, .inl rfl⟩
  · exact ⟨'\'', _, rfl, .inr rfl⟩

theorem exists_head_writeScalar {v : Value} (h : IsScalar v) :
    ∃ c t, writeScalar v = c :: t ∧ isInk c ∧ c ≠ ']' := by
  cases h with
  | bool b => cases b <;> exact ⟨_, _, rfl, by decide⟩
  | @count n _ =>
    obtain ⟨c, t, ht⟩ := List.exists_cons_of_ne_nil (decimal_ne_nil n)
    have hc : c.isDigit := isDigit_of_mem_decimal (ht ▸ List.mem_cons_self)
    refine ⟨c, t, ht, isInk_of_class hc (by decide), ?_⟩
    rintro rfl
    exact absurd hc (by decide)
  | str s =>
    obtain ⟨c, t, ht, rfl | rfl⟩ := exists_head_writeString s <;> exact ⟨_, t, ht, by decide⟩

theorem readValue?_token (fuel depth : Nat) {s t : List Char} {v : Value} (hne : s ≠ [])
    (hs : ∀ c ∈ s, isTokenChar c) (ht : Ends t) (hv : tokenValue? s = some v) :
    readValue? (fuel + 1) depth (s ++ t) = some (v, t) := by
  have hsplit := splitToken_append hs ht
  have hhead : ∀ d u, isTokenChar d = false → s ++ t ≠ d :: u := by
    intro d u hd e
    obtain ⟨c, s, rfl⟩ := List.exists_cons_of_ne_nil hne
    have hc := hs c List.mem_cons_self
    rw [(List.cons.inj e).1, hd] at hc
    exact absurd hc (by decide)
  rw [readValue?, hsplit, hv, Option.map_some]
  · exact fun u => hhead '"' _ (by decide)
  · exact fun u => hhead '"' _ (by decide)
  · exact fun u => hhead '\'' _ (by decide)
  · exact fun u => hhead '\'' _ (by decide)
  · exact fun u => hhead '[' _ (by decide)
  · exact fun u => hhead '\x7b' _ (by decide)

theorem readValue?_writeScalar (fuel depth : Nat) {v : Value} (h : IsScalar v) {t : List Char}
    (ht : Ends t) : readValue? (fuel + 1) depth (writeScalar v ++ t) = some (v, t) := by
  cases h with
  | bool b =>
    cases b <;>
      exact readValue?_token fuel depth (by decide) (List.all_eq_true.1 (by decide)) ht rfl
  | @count n h =>
    exact readValue?_token fuel depth (decimal_ne_nil n)
      (fun c hc => isTokenChar_of_isDigit (isDigit_of_mem_decimal hc)) ht (tokenValue?_decimal h)
  | str s => exact readValue?_writeString fuel depth s ht

/-- An item, and then a comma or the end of the array. -/
theorem readItems?_item (fuel depth : Nat) (lead : List Char) {v : Value} (hv : IsScalar v)
    {t : List Char} (ht : Ends t)
    (hlead : ∀ u, skipTrivia? false (lead ++ u) = skipTrivia? false u) :
    readItems? (fuel + 2) depth (lead ++ (writeScalar v ++ t)) =
      (skipTrivia? false t).bind fun t =>
        match t with
        | ',' :: t => (readItems? (fuel + 1) depth t).map fun r => (v :: r.1, r.2)
        | ']' :: t => some ([v], t)
        | _ => none := by
  obtain ⟨c, s, hwrite, hink, hclose⟩ := exists_head_writeScalar hv
  have hread := readValue?_writeScalar fuel depth hv ht
  rw [hwrite, List.cons_append] at hread
  rw [readItems?, hlead, hwrite, List.cons_append, skipTrivia?_ink hink, Option.bind_some]
  split
  · exact absurd (List.cons.inj ‹_›).1 hclose
  · rw [hread]
    rfl

/-- An item of an array on a line of its own. -/
def itemLine (item : List Char) : List Char := [' ', ' ', ' ', ' '] ++ item ++ [',', '\n']

theorem writeArray_lines (a b : List Char) (items : List (List Char)) :
    writeArray (a :: b :: items) =
      '[' :: '\n' :: ((a :: b :: items).flatMap itemLine ++ [']']) := rfl

theorem readItems?_lines (depth : Nat) {items : List Value} (h : ∀ v ∈ items, IsScalar v)
    (rest : List Char) (fuel : Nat) (hfuel : items.length + 2 ≤ fuel) :
    readItems? fuel depth ('\n' :: ((items.map writeScalar).flatMap itemLine ++ ']' :: rest)) =
      some (items, rest) := by
  induction items generalizing fuel with
  | nil =>
    obtain ⟨fuel, rfl⟩ : ∃ k, fuel = k + 1 := ⟨fuel - 1, by omega⟩
    simp [readItems?, skipTrivia?, isWhite]
  | cons v items ih =>
    obtain ⟨fuel, rfl⟩ : ∃ k, fuel = k + 2 := ⟨fuel - 2, by omega⟩
    have hends : Ends (',' :: '\n' :: ((items.map writeScalar).flatMap itemLine ++ ']' :: rest)) :=
      ⟨',', by decide, rfl⟩
    have hitem := readItems?_item fuel depth ['\n', ' ', ' ', ' ', ' '] (h v List.mem_cons_self)
      hends (fun u => by simp [skipTrivia?, isWhite])
    have hrest := ih (fun w hw => h w (List.mem_cons_of_mem _ hw)) (fuel + 1)
      (by simp at hfuel; omega)
    simp only [List.map_cons, List.flatMap_cons, itemLine, List.append_assoc, List.cons_append,
      List.nil_append] at hitem hrest ⊢
    rw [hitem, skipTrivia?_ink (by decide), Option.bind_some]
    simp only [hrest, Option.map_some]

theorem readValue?_array (fuel depth : Nat) (t : List Char) :
    readValue? (fuel + 1) (depth + 1) ('[' :: t) =
      (readItems? fuel depth t).map fun r => (.array r.1, r.2) := by
  simp [readValue?]

/-- An array is read back in each of its layouts: empty, on one line, with a
line for each item. -/
theorem readValue?_writeArray (depth : Nat) {items : List Value} (h : ∀ v ∈ items, IsScalar v)
    (t : List Char) (fuel : Nat) (hfuel : items.length + 3 ≤ fuel) :
    readValue? fuel (depth + 1) (writeArray (items.map writeScalar) ++ t) =
      some (.array items, t) := by
  obtain ⟨fuel, rfl⟩ : ∃ k, fuel = k + 3 := ⟨fuel - 3, by omega⟩
  match items, h with
  | [], _ => simp [writeArray, readValue?, readItems?, skipTrivia?, isWhite]
  | [v], h =>
    have hends : Ends (']' :: t) := ⟨']', by decide, rfl⟩
    have hitem := readItems?_item fuel depth [] (h v List.mem_cons_self) hends (fun u => rfl)
    rw [skipTrivia?_ink (by decide), Option.bind_some, List.nil_append] at hitem
    simp only [List.map_cons, List.map_nil, writeArray, List.cons_append, List.append_assoc,
      List.nil_append]
    rw [readValue?_array, hitem]
    rfl
  | v :: w :: items, h =>
    have hlines := readItems?_lines depth h t (fuel + 2) (by omega)
    simp only [List.map_cons] at hlines ⊢
    simp only [writeArray_lines, List.cons_append, List.append_assoc, List.nil_append]
    rw [readValue?_array, hlines, Option.map_some]

theorem length_le_flatMap {α β : Type} {f : α → List β} (hf : ∀ a, f a ≠ []) (l : List α) :
    l.length ≤ (l.flatMap f).length := by
  induction l with
  | nil => simp
  | cons a l ih =>
    have := List.length_pos_iff.2 (hf a)
    simp only [List.flatMap_cons, List.length_append, List.length_cons]
    omega

theorem length_writeArray (items : List (List Char)) :
    items.length + 1 ≤ (writeArray items).length := by
  have hlines := length_le_flatMap (f := itemLine) (by simp [itemLine]) items
  match items with
  | [] => simp [writeArray]
  | [item] => simp [writeArray]
  | a :: b :: items =>
    simp only [writeArray_lines, List.length_cons, List.length_append] at hlines ⊢
    omega

theorem writeValue_scalar {v : Value} (h : IsScalar v) : writeValue v = writeScalar v := by
  cases h <;> rfl

theorem exists_head_writeValue {v : Value} (h : IsSetting v) :
    ∃ c t, writeValue v = c :: t ∧ isInk c := by
  cases h with
  | scalar h =>
    obtain ⟨c, t, ht, hink, -⟩ := exists_head_writeScalar h
    exact ⟨c, t, by rw [writeValue_scalar h, ht], hink⟩
  | @array items h =>
    match items with
    | [] | [_] | _ :: _ :: _ => exact ⟨'[', _, rfl, by decide⟩

theorem readValue?_writeValue (depth : Nat) {v : Value} (h : IsSetting v) {t : List Char}
    (ht : Ends t) (fuel : Nat) (hfuel : (writeValue v).length + 1 < fuel) :
    readValue? fuel (depth + 1) (writeValue v ++ t) = some (v, t) := by
  cases h with
  | scalar h =>
    obtain ⟨fuel, rfl⟩ : ∃ k, fuel = k + 1 := ⟨fuel - 1, by omega⟩
    rw [writeValue_scalar h, readValue?_writeScalar _ _ h ht]
  | @array items h =>
    have hlength := length_writeArray (items.map writeScalar)
    rw [List.length_map] at hlength
    rw [writeValue] at hfuel ⊢
    exact readValue?_writeArray depth h t fuel (by omega)

/-! ## Lines -/

/-- What a key starts with is no white space, starts no comment, and is no
bracket. -/
theorem isInk_of_isKeyHead {c : Char} (h : isKeyHead c) : isInk c ∧ c ≠ '[' := by
  refine ⟨isInk_of_class h (by decide), ?_⟩
  rintro rfl
  exact absurd h (by decide)

/-- A name of a key, and then a dot or the end of the key. -/
theorem readNames?_writeKey (n : Nat) (name : String) {c : Char} (hc : isBareChar c = false)
    (t : List Char) : readNames? (n + 1) (writeKey name ++ c :: t) =
      match skipWhite (c :: t) with
      | '.' :: t => (readNames? n t).map fun r => (name :: r.1, r.2)
      | t => some ([name], t) := by
  obtain ⟨d, s, hwrite, hhead⟩ := exists_head_writeKey name
  have hread := readSimpleKey?_writeKey name hc t
  rw [hwrite, List.cons_append] at hread ⊢
  rw [readNames?, skipWhite_ink (isInk_of_isKeyHead hhead).1, hread]
  rfl

theorem readNames?_header {names : List String} (hne : names ≠ []) (n : Nat)
    (hn : names.length ≤ n) (t : List Char) :
    readNames? n (['.'].intercalate (names.map writeKey) ++ ']' :: t) = some (names, ']' :: t) := by
  induction names generalizing n with
  | nil => exact absurd rfl hne
  | cons name names ih =>
    obtain ⟨n, rfl⟩ : ∃ k, n = k + 1 := ⟨n - 1, by simp at hn; omega⟩
    cases names with
    | nil =>
      rw [List.map_singleton, List.intercalate_singleton, readNames?_writeKey n name (by decide),
        skipWhite_ink (by decide)]
      rfl
    | cons next names =>
      have hrest := ih (by simp) n (by simpa using hn)
      simp only [List.map_cons, List.intercalate_cons_cons, List.append_assoc, List.cons_append,
        List.nil_append] at hrest ⊢
      rw [readNames?_writeKey n name (by decide), skipWhite_ink (by decide)]
      simp only [hrest, Option.map_some]

theorem skipWhite_white {c : Char} (h : isWhite c) (t : List Char) :
    skipWhite (c :: t) = skipWhite t := by
  simp [skipWhite, h]

theorem skipLineEnd?_line (t : List Char) : skipLineEnd? ('\n' :: t) = some t := by
  simp [skipLineEnd?, skipWhite, isWhite]

theorem readStatement?_writeRow {row : String × Value} (h : IsSetting row.2) (t : List Char) :
    readStatement? (writeRow row ++ t) = some (.setting [row.1] row.2, t) := by
  obtain ⟨name, v⟩ := row
  obtain ⟨c, s, hkey, hhead⟩ := exists_head_writeKey name
  obtain ⟨d, u, hvalue, hink⟩ := exists_head_writeValue h
  have hbracket := (isInk_of_isKeyHead hhead).2
  have hwrite : writeRow (name, v) ++ t =
      writeKey name ++ ' ' :: '=' :: ' ' :: (writeValue v ++ '\n' :: t) := by simp [writeRow]
  have hname : readKey? (writeKey name ++ ' ' :: '=' :: ' ' :: (writeValue v ++ '\n' :: t)) =
      some ([name], '=' :: ' ' :: (writeValue v ++ '\n' :: t)) := by
    rw [readKey?, maxDepth, readNames?_writeKey 78 name (by decide), skipWhite_white (by decide),
      skipWhite_ink (by decide)]
    rfl
  have hskip : skipWhite (' ' :: (writeValue v ++ '\n' :: t)) = writeValue v ++ '\n' :: t := by
    rw [skipWhite_white (by decide), hvalue, List.cons_append, skipWhite_ink hink]
  have hread : readValue? (2 * (' ' :: (writeValue v ++ '\n' :: t)).length + 2) maxDepth
      (writeValue v ++ '\n' :: t) = some (v, '\n' :: t) :=
    readValue?_writeValue 78 h ⟨'\n', by decide, rfl⟩ _ (by simp; omega)
  rw [hwrite, readStatement?]
  · simp only [hname, expect?, if_true, hskip, hread, skipLineEnd?_line, Option.bind_eq_bind,
      Option.bind_some]
    rfl
  · intro u hu
    rw [hkey] at hu
    exact hbracket (List.cons.inj hu).1
  · intro u hu
    rw [hkey] at hu
    exact hbracket (List.cons.inj hu).1

theorem readStatement?_header {names : List String} (hne : names ≠ [])
    (hdepth : names.length ≤ maxDepth) (t : List Char) :
    readStatement? ('[' :: (['.'].intercalate (names.map writeKey) ++ ']' :: '\n' :: t)) =
      some (.header names, t) := by
  have hnames := readNames?_header hne maxDepth hdepth ('\n' :: t)
  obtain ⟨c, s, hhead, hbracket⟩ :
      ∃ c s, ['.'].intercalate (names.map writeKey) = c :: s ∧ c ≠ '[' := by
    obtain ⟨name, names, rfl⟩ := List.exists_cons_of_ne_nil hne
    obtain ⟨c, s, hkey, hhead⟩ := exists_head_writeKey name
    refine ⟨c, ?_⟩
    cases names with
    | nil => exact ⟨s, by simp [hkey], (isInk_of_isKeyHead hhead).2⟩
    | cons => exact ⟨_, by simp [hkey]; rfl, (isInk_of_isKeyHead hhead).2⟩
  rw [readStatement?]
  · simp only [readKey?, hnames, expect?, if_true, skipLineEnd?_line, Option.bind_eq_bind,
      Option.bind_some]
    rfl
  · intro u hu
    rw [hhead] at hu
    exact hbracket (List.cons.inj hu).1

/-! ## Documents -/

namespace Section

/-- The statements that a section spells. -/
def statements (s : Section) : List Statement :=
  .header s.header :: s.rows.map fun row => .setting [row.1] row.2

/-- A section whose header has names, not too many of them, and whose rows hold
settings. -/
structure Writable (s : Section) : Prop where
  named : s.header ≠ []
  shallow : s.header.length ≤ maxDepth
  settings : ∀ row ∈ s.rows, IsSetting row.2

end Section

/-- One line, and then those after it. -/
theorem readStatements?_line (fuel : Nat) {c : Char} (hink : isInk c) {t rest : List Char}
    {line : Statement} (h : readStatement? (c :: t) = some (line, rest)) :
    readStatements? (fuel + 1) (c :: t) = (readStatements? fuel rest).map (line :: ·) := by
  rw [readStatements?, skipTrivia?_ink hink, Option.bind_some]
  simp only [List.isEmpty_cons, Bool.false_eq_true, if_false, h, Option.bind_some]

/-- Lines without anything say nothing. -/
theorem readStatements?_empty (fuel : Nat) (t : List Char) :
    readStatements? fuel ('\n' :: t) = readStatements? fuel t := by
  cases fuel with
  | zero => rfl
  | succ fuel => simp only [readStatements?, skipTrivia?]

theorem readStatements?_rows (fuel : Nat) {rows : List (String × Value)}
    (h : ∀ row ∈ rows, IsSetting row.2) (rest : List Char) :
    readStatements? (fuel + rows.length) (rows.flatMap writeRow ++ rest) =
      (readStatements? fuel rest).map
        ((rows.map fun row => Statement.setting [row.1] row.2) ++ ·) := by
  induction rows with
  | nil => simp
  | cons row rows ih =>
    have hline := readStatement?_writeRow (h row List.mem_cons_self)
      (rows.flatMap writeRow ++ rest)
    obtain ⟨c, t, hkey, hhead⟩ := exists_head_writeKey row.1
    obtain ⟨u, hwrite⟩ : ∃ u, writeRow row ++ (rows.flatMap writeRow ++ rest) = c :: u :=
      ⟨_, by rw [writeRow, hkey]; rfl⟩
    rw [hwrite] at hline
    rw [List.flatMap_cons, List.append_assoc, hwrite, List.length_cons, ← Nat.add_assoc,
      readStatements?_line _ (isInk_of_isKeyHead hhead).1 hline,
      ih fun r hr => h r (List.mem_cons_of_mem _ hr), Option.map_map]
    rfl

theorem readStatements?_writeSection (fuel : Nat) {s : Section} (h : s.Writable)
    (rest : List Char) :
    readStatements? (fuel + s.statements.length) (writeSection s ++ rest) =
      (readStatements? fuel rest).map (s.statements ++ ·) := by
  have hheader := readStatement?_header h.named h.shallow (s.rows.flatMap writeRow ++ rest)
  have hwrite : writeSection s ++ rest = '[' :: (['.'].intercalate (s.header.map writeKey) ++
      ']' :: '\n' :: (s.rows.flatMap writeRow ++ rest)) := by simp [writeSection]
  have hlength : fuel + s.statements.length = fuel + s.rows.length + 1 := by
    simp [Section.statements]
    omega
  rw [hwrite, hlength, readStatements?_line _ (by decide) hheader,
    readStatements?_rows fuel h.settings, Option.map_map]
  rfl

theorem readStatements?_document (fuel : Nat) {sections : List Section}
    (h : ∀ s ∈ sections, s.Writable) :
    readStatements? (fuel + 1 + (sections.flatMap Section.statements).length)
      (['\n'].intercalate (sections.map writeSection)) =
        some (sections.flatMap Section.statements) := by
  induction sections with
  | nil => rfl
  | cons s sections ih =>
    have hs := readStatements?_writeSection
      (fuel + 1 + (sections.flatMap Section.statements).length) (h s List.mem_cons_self)
    have hrest := ih fun x hx => h x (List.mem_cons_of_mem _ hx)
    have hlength : fuel + 1 + ((s :: sections).flatMap Section.statements).length =
        fuel + 1 + (sections.flatMap Section.statements).length + s.statements.length := by
      simp
      omega
    rw [hlength]
    cases sections with
    | nil => simpa [readStatements?, skipTrivia?] using hs []
    | cons next sections =>
      simp only [List.map_cons, List.intercalate_cons_cons, List.append_assoc, List.cons_append,
        List.nil_append] at hrest ⊢
      rw [hs, readStatements?_empty, hrest]
      rfl

theorem length_writeSection (s : Section) : s.statements.length ≤ (writeSection s).length := by
  have hrows := length_le_flatMap (f := writeRow) (by simp [writeRow]) s.rows
  simp only [Section.statements, writeSection, List.length_cons, List.length_append,
    List.length_map, List.length_nil]
  omega

/-- Every statement takes a character at least. -/
theorem length_statements_le (sections : List Section) :
    (sections.flatMap Section.statements).length ≤
      (['\n'].intercalate (sections.map writeSection)).length := by
  induction sections with
  | nil => exact Nat.le_refl 0
  | cons s sections ih =>
    have hs := length_writeSection s
    cases sections with
    | nil => simpa using hs
    | cons next sections =>
      simp only [List.flatMap_cons, List.map_cons, List.intercalate_cons_cons, List.length_append,
        List.length_cons, List.length_nil] at ih ⊢
      omega

/-- Reading a written document gives the table that its sections build. -/
theorem read?_write {sections : List Section} (h : ∀ s ∈ sections, s.Writable) :
    read? (write sections) = build? (sections.flatMap Section.statements) := by
  obtain ⟨spare, hspare⟩ := Nat.le.dest (length_statements_le sections)
  have hread := readStatements?_document spare h
  rw [show spare + 1 + (sections.flatMap Section.statements).length =
    (['\n'].intercalate (sections.map writeSection)).length + 1 by omega] at hread
  -- A section starts with a bracket, so the document with no byte order mark.
  have hmark : ∀ t, (write sections).toList ≠ '\ufeff' :: t := by
    intro t ht
    rw [write, String.toList_ofList] at ht
    match sections with
    | [] => exact List.cons_ne_nil _ _ ht.symm
    | [s] => exact absurd (List.cons.inj ht).1 (by decide)
    | s :: next :: sections =>
      rw [List.map_cons, List.map_cons, List.intercalate_cons_cons] at ht
      exact absurd (List.cons.inj ht).1 (by decide)
  unfold read?
  split
  · exact absurd ‹_› (hmark _)
  · simp only [write, String.toList_ofList, hread, Option.bind_some]

end Relocate.Toml
