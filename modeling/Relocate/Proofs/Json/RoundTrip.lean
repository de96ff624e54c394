import Mathlib.Tactic.SplitIfs
import Relocate.Json.Printer
import Relocate.Json.Reader
import Relocate.Proofs.Text.Digits

/-!
# JSON read back

What is written is read back, with white space around it or not, as long as
no number in it is kept as text (`Value.Exact`). Reading is bounded by a
number of steps; the length of the written text always covers them, because
every bracket, comma and item takes a character at least.

* `readString?_quoted`, `readNumber?_signedDecimal`: texts and numbers.
* `readsBack`: a value, in either form and at any depth.
* `read?_write`: a whole text.
-/
namespace Relocate

/-- A value without numbers that are kept as text. -/
inductive Value.Exact : Value → Prop where
  | null : Exact .null
  | bool (b : Bool) : Exact (.bool b)
  | int (n : Int) : Exact (.int n)
  | str (s : String) : Exact (.str s)
  | array {items : List Value} (h : ∀ v ∈ items, Exact v) : Exact (.array items)
  | table {fields : List (String × Value)} (h : ∀ f ∈ fields, Exact f.2) : Exact (.table fields)

namespace Json

open Text

/-! ## Texts -/

theorem readCode?_hex {n : Nat} (h : n < 16 ^ 4) (t : List Char) :
    readCode? (hex 4 n ++ t) = some (n, t) := by
  have hlength := length_hex (by decide) h
  rw [readCode?, List.take_left' hlength, List.drop_left' hlength, if_pos hlength, number?_hex]
  rfl

/-- A character of a text, escaped or not, is read back. -/
theorem readString?_escape (c : Char) (t : List Char) (fuel : Nat) :
    readString? (fuel + 1) (escape c ++ t) =
      (readString? fuel t).map fun r => (c :: r.1, r.2) := by
  unfold escape
  split_ifs with h1 h2 h3 h4 h5 h6 h7 h8
  · simp [readString?, readEscape?, h1]
  · simp [readString?, readEscape?, h2]
  · simp [readString?, readEscape?, h3]
  · simp [readString?, readEscape?, h4]
  · simp [readString?, readEscape?, h5]
  · simp [readString?, readEscape?, h6]
  · simp [readString?, readEscape?, h7]
  · have hread : readEscape? ('u' :: (hex 4 c.toNat ++ t)) = some (c, t) := by
      rw [readEscape?, readUnicode?, readCode?_hex (by omega)]
      simp only [Option.bind_eq_bind, Option.bind_some]
      rw [if_neg (by omega), char?_toNat]
      rfl
    simp [readString?, hread]
  · simp [readString?, h1, h2, h8]

theorem readString?_flatMap (s t : List Char) {fuel : Nat} (h : s.length < fuel) :
    readString? fuel (s.flatMap escape ++ '"' :: t) = some (s, t) := by
  induction s generalizing fuel with
  | nil =>
    obtain ⟨fuel, rfl⟩ : ∃ k, fuel = k + 1 := ⟨fuel - 1, by simp at h; omega⟩
    simp [readString?]
  | cons c s ih =>
    obtain ⟨fuel, rfl⟩ : ∃ k, fuel = k + 1 := ⟨fuel - 1, by simp at h; omega⟩
    rw [List.flatMap_cons, List.append_assoc, readString?_escape, ih (by simpa using h)]
    rfl

theorem escape_ne_nil (c : Char) : escape c ≠ [] := by
  unfold escape
  split_ifs <;> simp

theorem length_le_flatMap_escape (s : List Char) : s.length ≤ (s.flatMap escape).length := by
  induction s with
  | nil => simp
  | cons c s ih =>
    have := List.length_pos_iff.2 (escape_ne_nil c)
    simp only [List.flatMap_cons, List.length_append, List.length_cons]
    omega

/-- The steps that reading allows for a text are enough. -/
theorem readString?_quoted (s : String) (t : List Char) :
    readString? ((s.toList.flatMap escape ++ '"' :: t).length + 1)
      (s.toList.flatMap escape ++ '"' :: t) = some (s.toList, t) := by
  have := length_le_flatMap_escape s.toList
  refine readString?_flatMap _ _ ?_
  simp only [List.length_append, List.length_cons]
  omega

/-! ## Numbers -/

/-- What may follow a value: the end, a comma, a closing bracket or white
space. -/
def Follows (t : List Char) : Prop :=
  ∀ c, t.head? = some c → c.isDigit = false ∧ c ≠ '.' ∧ c ≠ 'e' ∧ c ≠ 'E'

theorem readDigits?_decimal (n : Nat) {t : List Char} (ht : Follows t) :
    readDigits? (decimal n ++ t) = some (decimal n, t) := by
  have hall : ∀ c ∈ decimal n, c.isDigit := fun c hc => isDigit_of_mem_decimal hc
  have hstop : t.takeWhile Char.isDigit = [] ∧ t.dropWhile Char.isDigit = t := by
    cases t with
    | nil => simp
    | cons c t => simp [(ht c rfl).1]
  rw [readDigits?, List.takeWhile_append_of_pos hall, List.dropWhile_append_of_pos hall, hstop.1,
    hstop.2, List.append_nil]
  simp [decimal_ne_nil]

theorem readFraction?_follows {t : List Char} (ht : Follows t) : readFraction? t = some ([], t) := by
  cases t with
  | nil => rfl
  | cons c t =>
    have := (ht c rfl).2.1
    unfold readFraction?
    split
    · simp_all
    · rfl

theorem readExponent?_follows {t : List Char} (ht : Follows t) : readExponent? t = some ([], t) := by
  cases t with
  | nil => rfl
  | cons c t =>
    obtain ⟨-, -, he, hE⟩ := ht c rfl
    simp [readExponent?, he, hE]

theorem readNumber?_signedDecimal (n : Int) {t : List Char} (ht : Follows t) :
    readNumber? (signedDecimal n ++ t) = some (.int n, t) := by
  cases n with
  | ofNat n =>
    -- The first character is a digit, so there is no sign.
    have hsign : ∀ u, decimal n ++ t ≠ '-' :: u := by
      intro u hu
      obtain ⟨c, ds, hds⟩ := List.exists_cons_of_ne_nil (decimal_ne_nil n)
      have hc : c.isDigit := isDigit_of_mem_decimal (by rw [hds]; exact List.mem_cons_self)
      rw [hds, List.cons_append] at hu
      rw [(List.cons.inj hu).1] at hc
      exact absurd hc (by decide)
    simp [readNumber?, signedDecimal, readDigits?_decimal n ht, not_needless_zero,
      readFraction?_follows ht, readExponent?_follows ht, number?_decimal]
  | negSucc n =>
    simp [readNumber?, signedDecimal, readDigits?_decimal (n + 1) ht, not_needless_zero,
      readFraction?_follows ht, readExponent?_follows ht, number?_decimal]
    omega

/-- A number starts with a digit or a minus sign. -/
def IsNumberHead (c : Char) : Prop := c.isDigit ∨ c = '-'

theorem exists_head_signedDecimal (n : Int) :
    ∃ c t, signedDecimal n = c :: t ∧ IsNumberHead c := by
  cases n with
  | ofNat n =>
    obtain ⟨c, ds, hds⟩ := List.exists_cons_of_ne_nil (decimal_ne_nil n)
    have hmem : c ∈ decimal n := by rw [hds]; exact List.mem_cons_self
    exact ⟨c, ds, hds, .inl (isDigit_of_mem_decimal hmem)⟩
  | negSucc n => exact ⟨'-', _, rfl, .inr rfl⟩

theorem IsNumberHead.ne {c d : Char} (hc : IsNumberHead c) (hd : d.isDigit = false)
    (hminus : d ≠ '-') : c ≠ d := by
  rintro rfl
  rcases hc with hc | hc
  · simp [hc] at hd
  · exact hminus hc

theorem IsNumberHead.not_isSpace {c : Char} (hc : IsNumberHead c) : isSpace c = false := by
  simp only [isSpace, Bool.or_eq_false_iff, beq_eq_false_iff_ne]
  exact ⟨⟨⟨hc.ne (by decide) (by decide), hc.ne (by decide) (by decide)⟩,
    hc.ne (by decide) (by decide)⟩, hc.ne (by decide) (by decide)⟩

/-! ## White space -/

theorem skipSpace_cons {c : Char} (t : List Char) (h : isSpace c = false) :
    skipSpace (c :: t) = c :: t := by simp [skipSpace, h]

theorem skipSpace_append {space : List Char} (h : ∀ c ∈ space, isSpace c) {c : Char}
    (t : List Char) (hc : isSpace c = false) : skipSpace (space ++ c :: t) = c :: t := by
  rw [skipSpace, List.dropWhile_append_of_pos h]
  exact skipSpace_cons t hc

theorem isSpace_of_mem_lineBreak (form : Form) (depth : Nat) {c : Char}
    (h : c ∈ form.lineBreak depth) : isSpace c := by
  cases form with
  | compact => simp [Form.lineBreak] at h
  | pretty =>
    simp only [Form.lineBreak, List.mem_cons, List.mem_replicate] at h
    rcases h with rfl | ⟨-, rfl⟩ <;> decide

/-! ## Values -/

/-- A value starts with a character that is neither white space nor a closing
bracket. -/
theorem exists_head_write {v : Value} (h : v.Exact) (form : Form) (depth : Nat) :
    ∃ c t, write form depth v = c :: t ∧ isSpace c = false ∧ c ≠ ']' ∧ c ≠ '\x7d' := by
  have henclosed : ∀ opening closing items, isSpace opening = false → opening ≠ ']' →
      opening ≠ '\x7d' → ∃ c t, enclosed form depth opening closing items = c :: t ∧
        isSpace c = false ∧ c ≠ ']' ∧ c ≠ '\x7d' := by
    intro opening closing items hspace hbracket hbrace
    unfold enclosed
    split <;> exact ⟨opening, _, rfl, hspace, hbracket, hbrace⟩
  cases h with
  | null => exact ⟨'n', _, rfl, by decide⟩
  | bool b => cases b <;> exact ⟨_, _, rfl, by decide⟩
  | int n =>
    obtain ⟨c, t, ht, hc⟩ := exists_head_signedDecimal n
    exact ⟨c, t, ht, hc.not_isSpace, hc.ne (by decide) (by decide), hc.ne (by decide) (by decide)⟩
  | str s => exact ⟨'"', _, rfl, by decide⟩
  | array h =>
    rw [write]
    exact henclosed '[' _ _ (by decide) (by decide) (by decide)
  | table h =>
    rw [write]
    exact henclosed '\x7b' _ _ (by decide) (by decide) (by decide)

/-- A value that is read back wherever it stands, by as many steps as it has
characters. -/
def ReadsBack (form : Form) (depth : Nat) (v : Value) : Prop :=
  ∀ fuel space rest, (write form depth v).length ≤ fuel → (∀ c ∈ space, isSpace c) →
    Follows rest → readValue? fuel (space ++ (write form depth v ++ rest)) = some (v, rest)

theorem follows_cons {c : Char} (t : List Char)
    (h : c.isDigit = false ∧ c ≠ '.' ∧ c ≠ 'e' ∧ c ≠ 'E') : Follows (c :: t) := by
  intro d hd
  obtain rfl : c = d := by simpa using hd
  exact h

theorem follows_space {space t : List Char} (h : ∀ c ∈ space, isSpace c) (ht : Follows t) :
    Follows (space ++ t) := by
  cases space with
  | nil => exact ht
  | cons c space =>
    refine follows_cons _ ?_
    have hc := h c List.mem_cons_self
    simp only [isSpace, Bool.or_eq_true, beq_iff_eq] at hc
    rcases hc with ((rfl | rfl) | rfl) | rfl <;> decide

theorem readItems?_write {form : Form} {depth : Nat} {v : Value} {vs : List Value}
    (h : ∀ w ∈ v :: vs, ReadsBack form depth w) (fuel : Nat) {space tail : List Char}
    (hspace : ∀ c ∈ space, isSpace c) (htail : ∀ c ∈ tail, isSpace c) (rest : List Char)
    (hfuel : ((',' :: form.lineBreak depth).intercalate
      (writeItems form depth (v :: vs))).length < fuel) :
    readItems? fuel (space ++ ((',' :: form.lineBreak depth).intercalate
      (writeItems form depth (v :: vs)) ++ (tail ++ ']' :: rest))) = some (v :: vs, rest) := by
  induction vs generalizing v fuel space with
  | nil =>
    obtain ⟨fuel, rfl⟩ : ∃ k, fuel = k + 1 := ⟨fuel - 1, by omega⟩
    simp only [writeItems, List.intercalate_singleton] at hfuel ⊢
    rw [readItems?, h v (by simp) fuel space _ (by omega) hspace
      (follows_space htail (follows_cons _ (by decide))), Option.bind_some]
    simp only [skipSpace_append htail rest (show isSpace ']' = false by decide)]
  | cons w vs ih =>
    obtain ⟨fuel, rfl⟩ : ∃ k, fuel = k + 1 := ⟨fuel - 1, by omega⟩
    simp only [writeItems, List.intercalate_cons_cons, List.append_assoc, List.length_append,
      List.length_cons, List.cons_append] at hfuel ⊢
    rw [readItems?, h v (by simp) fuel space _ (by omega) hspace
      (follows_cons _ (by decide)), Option.bind_some]
    have hrest := ih (fun x hx => h x (List.mem_cons_of_mem v hx)) fuel
      (fun c hc => isSpace_of_mem_lineBreak form depth hc)
      (by simp only [writeItems]; omega)
    simp only [writeItems] at hrest
    simp only [skipSpace_cons _ (show isSpace ',' = false by decide), hrest, Option.map_some]

theorem isSpace_of_mem_colon (form : Form) : ∃ space, form.colon = ':' :: space ∧
    ∀ c ∈ space, isSpace c := by
  cases form with
  | compact => exact ⟨[], rfl, by simp⟩
  | pretty => exact ⟨[' '], rfl, by simp; decide⟩

/-- A name with its colon is read back, and then its value. -/
theorem readFields?_field {form : Form} {depth : Nat} {name : String} {v : Value}
    (h : ReadsBack form depth v) {fuel : Nat} {space : List Char} (hspace : ∀ c ∈ space, isSpace c)
    {rest : List Char} (hrest : Follows rest) (hfuel : (write form depth v).length ≤ fuel) :
    readFields? (fuel + 1)
        (space ++ (quoted name ++ (form.colon ++ (write form depth v ++ rest)))) =
      match skipSpace rest with
      | ',' :: t => (readFields? fuel t).map fun r => ((name, v) :: r.1, r.2)
      | '\x7d' :: t => some ([(name, v)], t)
      | _ => none := by
  obtain ⟨gap, hgap, hgapspace⟩ := isSpace_of_mem_colon form
  have hvalue := h fuel gap rest hfuel hgapspace hrest
  simp only [quoted, hgap, List.append_assoc, List.cons_append, List.nil_append]
  rw [readFields?, skipSpace_append hspace _ (by decide)]
  simp only [readString?_quoted, Option.bind_some, skipSpace_cons _ (show isSpace ':' = false by decide)]
  rw [hvalue]
  show (match skipSpace rest with
    | ',' :: t => (readFields? fuel t).map fun r : List (String × Value) × List Char =>
      ((String.ofList name.toList, v) :: r.1, r.2)
    | '\x7d' :: t => some ([(String.ofList name.toList, v)], t)
    | _ => none) = _
  rw [String.ofList_toList]

theorem readFields?_write {form : Form} {depth : Nat} {field : String × Value}
    {fields : List (String × Value)} (h : ∀ f ∈ field :: fields, ReadsBack form depth f.2)
    (fuel : Nat) {space tail : List Char} (hspace : ∀ c ∈ space, isSpace c)
    (htail : ∀ c ∈ tail, isSpace c) (rest : List Char)
    (hfuel : ((',' :: form.lineBreak depth).intercalate
      (writeFields form depth (field :: fields))).length < fuel) :
    readFields? fuel (space ++ ((',' :: form.lineBreak depth).intercalate
      (writeFields form depth (field :: fields)) ++ (tail ++ '\x7d' :: rest))) =
        some (field :: fields, rest) := by
  induction fields generalizing field fuel space with
  | nil =>
    obtain ⟨name, v⟩ := field
    have hv : ReadsBack form depth v := h (name, v) List.mem_cons_self
    obtain ⟨fuel, rfl⟩ : ∃ k, fuel = k + 1 := ⟨fuel - 1, by omega⟩
    simp only [writeFields, List.intercalate_singleton, List.length_append,
      List.append_assoc] at hfuel ⊢
    rw [readFields?_field hv hspace (follows_space htail (follows_cons _ (by decide))) (by omega)]
    simp only [skipSpace_append htail rest (show isSpace '\x7d' = false by decide)]
  | cons next fields ih =>
    obtain ⟨name, v⟩ := field
    have hv : ReadsBack form depth v := h (name, v) List.mem_cons_self
    obtain ⟨fuel, rfl⟩ : ∃ k, fuel = k + 1 := ⟨fuel - 1, by omega⟩
    have hrest := ih (fun x hx => h x (List.mem_cons_of_mem _ hx)) fuel
      (fun c hc => isSpace_of_mem_lineBreak form depth hc)
    simp only [writeFields, List.intercalate_cons_cons, List.length_append, List.length_cons,
      List.append_assoc, List.cons_append] at hfuel hrest ⊢
    rw [readFields?_field hv hspace (follows_cons _ (by decide)) (by omega)]
    simp only [skipSpace_cons _ (show isSpace ',' = false by decide)]
    rw [hrest (by omega)]
    rfl

/-! ## Values -/

theorem readValue?_number {c : Char} (hc : IsNumberHead c) (t : List Char) (fuel : Nat) :
    readValue? (fuel + 1) (c :: t) = readNumber? (c :: t) := by
  rw [readValue?, skipSpace_cons t hc.not_isSpace]
  split
  · exact absurd (List.cons.inj ‹_›).1 (hc.ne (by decide) (by decide))
  · exact absurd (List.cons.inj ‹_›).1 (hc.ne (by decide) (by decide))
  · exact absurd (List.cons.inj ‹_›).1 (hc.ne (by decide) (by decide))
  · exact absurd (List.cons.inj ‹_›).1 (hc.ne (by decide) (by decide))
  · exact absurd (List.cons.inj ‹_›).1 (hc.ne (by decide) (by decide))
  · exact absurd (List.cons.inj ‹_›).1 (hc.ne (by decide) (by decide))
  · rfl

/-- Between brackets, items that are not missing start with no white space. -/
theorem enclosed_cons (form : Form) (depth : Nat) (opening closing : Char) (item : List Char)
    (items : List (List Char)) (rest : List Char) :
    enclosed form depth opening closing (item :: items) ++ rest =
      opening :: (form.lineBreak (depth + 1) ++
        ((',' :: form.lineBreak (depth + 1)).intercalate (item :: items) ++
          (form.lineBreak depth ++ closing :: rest))) := by
  simp [enclosed]

theorem length_enclosed_cons (form : Form) (depth : Nat) (opening closing : Char)
    (item : List Char) (items : List (List Char)) :
    ((',' :: form.lineBreak (depth + 1)).intercalate (item :: items)).length + 2 ≤
      (enclosed form depth opening closing (item :: items)).length := by
  simp [enclosed]
  omega

/-- Behind an opening bracket and white space come the items. -/
theorem skipSpace_items {space item : List Char} (hspace : ∀ c ∈ space, isSpace c)
    (hitem : ∃ c t, item = c :: t ∧ isSpace c = false ∧ c ≠ ']' ∧ c ≠ '\x7d')
    (separator tail : List Char) (items : List (List Char)) :
    ∃ c t, separator.intercalate (item :: items) ++ tail = c :: t ∧ c ≠ ']' ∧ c ≠ '\x7d' ∧
      skipSpace (space ++ (separator.intercalate (item :: items) ++ tail)) = c :: t := by
  obtain ⟨c, t, rfl, hc, hends⟩ := hitem
  obtain ⟨u, hu⟩ : ∃ u, separator.intercalate ((c :: t) :: items) = c :: u := by
    cases items <;> simp
  rw [hu, List.cons_append]
  exact ⟨c, _, rfl, hends.1, hends.2, skipSpace_append hspace _ hc⟩

/-- White space in front of a value does not count. -/
theorem readsBack_of_write {form : Form} {depth : Nat} {v : Value} (hv : v.Exact)
    (h : ∀ fuel rest, (write form depth v).length ≤ fuel + 1 → Follows rest →
      readValue? (fuel + 1) (write form depth v ++ rest) = some (v, rest)) :
    ReadsBack form depth v := by
  intro fuel space rest hfuel hspace hrest
  obtain ⟨c, t, hwrite, hc, -⟩ := exists_head_write hv form depth
  obtain ⟨fuel, rfl⟩ : ∃ k, fuel = k + 1 := ⟨fuel - 1, by simp [hwrite] at hfuel; omega⟩
  have hread := h fuel rest hfuel hrest
  rw [hwrite, List.cons_append, readValue?, skipSpace_cons _ hc] at hread
  rw [hwrite, List.cons_append, readValue?, skipSpace_append hspace _ hc]
  exact hread

theorem readsBack {v : Value} (h : v.Exact) (form : Form) (depth : Nat) :
    ReadsBack form depth v := by
  induction h generalizing depth with
  | null =>
    refine readsBack_of_write .null fun fuel rest hfuel hrest => ?_
    simp [write, readValue?, skipSpace, isSpace]
  | bool b =>
    refine readsBack_of_write (.bool b) fun fuel rest hfuel hrest => ?_
    cases b <;> simp [write, readValue?, skipSpace, isSpace]
  | int n =>
    refine readsBack_of_write (.int n) fun fuel rest hfuel hrest => ?_
    obtain ⟨c, t, ht, hc⟩ := exists_head_signedDecimal n
    have hread := readNumber?_signedDecimal n hrest
    rw [write]
    rw [ht, List.cons_append] at hread ⊢
    rw [readValue?_number hc, hread]
  | str s =>
    refine readsBack_of_write (.str s) fun fuel rest hfuel hrest => ?_
    simp only [write, quoted, List.cons_append, List.append_assoc, List.nil_append]
    rw [readValue?, skipSpace_cons _ (by decide)]
    simp only [readString?_quoted, Option.map_some, String.ofList_toList]
  | @array items h ih =>
    refine readsBack_of_write (.array h) fun fuel rest hfuel hrest => ?_
    cases items with
    | nil => simp [write, writeItems, enclosed, readValue?, skipSpace, isSpace]
    | cons v vs =>
      have hlength := length_enclosed_cons form depth '[' ']'
        (write form (depth + 1) v) (writeItems form (depth + 1) vs)
      have hbreak : ∀ n, ∀ c ∈ form.lineBreak n, isSpace c :=
        fun n c hc => isSpace_of_mem_lineBreak form n hc
      have hitems := readItems?_write (fun w hw => ih w hw (depth + 1)) fuel
        (List.forall_mem_nil _) (hbreak depth) rest
      rw [write] at hfuel ⊢
      rw [writeItems] at hitems hfuel ⊢
      rw [enclosed_cons, readValue?, skipSpace_cons _ (by decide)]
      obtain ⟨c, t, ht, hbracket, -, hskip⟩ := skipSpace_items (hbreak (depth + 1))
        (exists_head_write (h v List.mem_cons_self) form (depth + 1))
        (',' :: form.lineBreak (depth + 1)) (form.lineBreak depth ++ ']' :: rest)
        (writeItems form (depth + 1) vs)
      simp only [hskip]
      rw [List.nil_append, ht] at hitems
      split
      · exact absurd (List.cons.inj ‹_›).1 hbracket
      · rw [hitems (by omega)]
        rfl
  | @table fields h ih =>
    refine readsBack_of_write (.table h) fun fuel rest hfuel hrest => ?_
    cases fields with
    | nil => simp [write, writeFields, enclosed, readValue?, skipSpace, isSpace]
    | cons field fields =>
      obtain ⟨name, v⟩ := field
      have hlength := length_enclosed_cons form depth '\x7b' '\x7d'
        (quoted name ++ form.colon ++ write form (depth + 1) v) (writeFields form (depth + 1) fields)
      have hbreak : ∀ n, ∀ c ∈ form.lineBreak n, isSpace c :=
        fun n c hc => isSpace_of_mem_lineBreak form n hc
      have hfields := readFields?_write (fun f hf => ih f hf (depth + 1)) fuel
        (List.forall_mem_nil _) (hbreak depth) rest
      rw [write] at hfuel ⊢
      rw [writeFields] at hfields hfuel ⊢
      rw [enclosed_cons, readValue?, skipSpace_cons _ (by decide)]
      have hhead : ∃ c t, quoted name ++ form.colon ++ write form (depth + 1) v = c :: t ∧
          isSpace c = false ∧ c ≠ ']' ∧ c ≠ '\x7d' := ⟨'"', _, rfl, by decide⟩
      obtain ⟨c, t, ht, -, hbrace, hskip⟩ := skipSpace_items (hbreak (depth + 1)) hhead
        (',' :: form.lineBreak (depth + 1)) (form.lineBreak depth ++ '\x7d' :: rest)
        (writeFields form (depth + 1) fields)
      simp only [hskip]
      rw [List.nil_append, ht] at hfields
      split
      · exact absurd (List.cons.inj ‹_›).1 hbrace
      · rw [hfields (by omega)]
        rfl

/-! ## Whole texts -/

/-- A whole text is read back, white space behind it or not. -/
theorem read?_write {v : Value} (h : v.Exact) (form : Form) {space : List Char}
    (hspace : ∀ c ∈ space, isSpace c) :
    read? (String.ofList (write form 0 v ++ space)) = some v := by
  have hfollows : Follows space := by
    simpa using follows_space hspace (show Follows [] by simp [Follows])
  have hread := readsBack h form 0 (2 * (write form 0 v ++ space).length + 2) [] space
    (by simp; omega) (by simp) hfollows
  have hskip : skipSpace space = [] := by
    have hdrop : (space ++ []).dropWhile isSpace = [] := List.dropWhile_append_of_pos hspace
    simpa [skipSpace] using hdrop
  rw [List.nil_append] at hread
  rw [read?, String.toList_ofList, hread]
  simp only [hskip, List.isEmpty_nil, if_true]

end Json

end Relocate
