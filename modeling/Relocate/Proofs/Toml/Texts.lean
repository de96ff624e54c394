import Mathlib.Data.List.Basic
import Mathlib.Tactic.SplitIfs
import Relocate.Proofs.Text.Digits
import Relocate.Toml.Printer
import Relocate.Toml.Reader

/-!
# TOML texts read back

A text is written in one of four forms and read by the reader of that form.
The forms on one line are read character by character. In the forms with three
quotes a quote of the text may stand for itself, so what a quote means depends
on what follows: up to two quotes right before the closing ones belong to the
text (`readLongBasic?_quotes`, `readLongLiteral?_quotes`), and elsewhere no
three quotes stand in a row (`quote_of_escapeLong` follows such a run).

* `readValue?_writeString`: a text, whatever its characters, where a comma, a
  bracket or a line end follows.
* `readSimpleKey?_writeKey`: a key, bare or in quotes.
-/
namespace Relocate.Toml

open Text

@[simp] theorem put?_some (c : Char) (s t : List Char) :
    put? (some c) (some (s, t)) = some (c :: s, t) := rfl

/-! ## Characters -/

/-- A character that is not a control character is a line feed or may stand for
itself. -/
theorem isPlain_of_not_isControl {c : Char} (h : isControl c = false) (hline : c ≠ '\n') :
    isPlain c := by
  simp only [isControl, Bool.or_eq_false_iff, Bool.and_eq_false_iff, decide_eq_false_iff_not,
    bne_eq_false_iff_eq, beq_eq_false_iff_ne] at h
  simp only [isPlain, Bool.or_eq_true, beq_iff_eq, Bool.and_eq_true, decide_eq_true_eq, bne_iff_ne]
  rcases h with ⟨(h | h) | h, h127⟩
  · exact .inr ⟨by omega, h127⟩
  · exact .inl h
  · exact absurd h hline

/-- How a character stands in a basic form. -/
inductive Escaped (c : Char) : List Char → Prop where
  /-- A backslash and a letter. -/
  | letter (l : Char) (h : letterEscape? l = some c) : Escaped c ['\\', l]
  /-- A backslash and four digits. -/
  | code (w x y z : Char) (h : codeEscape? [w, x, y, z] = some c) :
    Escaped c ['\\', 'u', w, x, y, z]
  | itself (hplain : isPlain c) (hquote : c ≠ '"') (hslash : c ≠ '\\') : Escaped c [c]

theorem escaped_code {c : Char} (h : c.toNat < 16 ^ 4) :
    Escaped c ('\\' :: 'u' :: upperHex 4 c.toNat) := by
  have hlength : (upperHex 4 c.toNat).length = 4 := by
    rw [upperHex, List.length_map, length_hex (by decide) h]
  have hcode : codeEscape? (upperHex 4 c.toNat) = some c := by
    rw [codeEscape?, number?_upperHex, Option.bind_some, char?_toNat]
  obtain ⟨w, x, y, z, hdigits⟩ := List.length_eq_four.1 hlength
  rw [hdigits] at hcode ⊢
  exact .code w x y z hcode

theorem escaped_escape (c : Char) : Escaped c (escape c) := by
  unfold escape
  split_ifs with hquote hslash h h h h h hcode
  · exact .letter '"' (by rw [hquote]; rfl)
  · exact .letter '\\' (by rw [hslash]; rfl)
  · exact .letter 'b' (by rw [h]; rfl)
  · exact .letter 't' (by rw [h]; rfl)
  · exact .letter 'n' (by rw [h]; rfl)
  · exact .letter 'f' (by rw [h]; rfl)
  · exact .letter 'r' (by rw [h]; rfl)
  · simp only [Bool.or_eq_true, decide_eq_true_eq, beq_iff_eq] at hcode
    exact escaped_code (by omega)
  · simp only [Bool.or_eq_true, decide_eq_true_eq, beq_iff_eq, not_or, Nat.not_lt] at hcode
    exact .itself (by simp [isPlain, hcode]) hquote hslash

/-- An escape starts with a character that may stand for itself, but is no
quotation mark. -/
theorem Escaped.exists_head {c : Char} {e : List Char} (h : Escaped c e) :
    ∃ d t, e = d :: t ∧ isPlain d ∧ d ≠ '"' := by
  cases h with
  | letter l | code => exact ⟨'\\', _, rfl, by decide⟩
  | itself hplain hquote => exact ⟨c, [], rfl, hplain, hquote⟩

/-! ## Forms on one line -/

theorem Escaped.readBasic? {c : Char} {e : List Char} (h : Escaped c e) (t : List Char) :
    readBasic? (e ++ t) = put? (some c) (readBasic? t) := by
  cases h with
  | letter l h =>
    rw [← h]
    unfold letterEscape? at h
    split at h <;> simp_all [Toml.readBasic?]
  | code w x y z h => simp [Toml.readBasic?, h]
  | itself hplain hquote hslash => simp [Toml.readBasic?, hplain, hslash]

theorem readBasic?_flatMap (s t : List Char) :
    readBasic? (s.flatMap escape ++ '"' :: t) = some (s, t) := by
  induction s with
  | nil => simp [readBasic?]
  | cons c s ih =>
    rw [List.flatMap_cons, List.append_assoc, (escaped_escape c).readBasic?, ih, put?_some]

theorem readLiteral?_append {s : List Char} (hplain : ∀ c ∈ s, isPlain c) (hquote : '\'' ∉ s)
    (t : List Char) : readLiteral? (s ++ '\'' :: t) = some (s, t) := by
  induction s with
  | nil => simp [readLiteral?]
  | cons c s ih =>
    have hne : c ≠ '\'' := fun h => hquote (h ▸ List.mem_cons_self)
    have hrest := ih (fun d hd => hplain d (List.mem_cons_of_mem _ hd))
      (fun h => hquote (List.mem_cons_of_mem _ h))
    simp [readLiteral?, hplain c List.mem_cons_self, hrest]

/-! ## Forms with three quotes -/

/-- What closes a long form: up to two quotes of the text, three more, and then
something else. -/
theorem closeLong_replicate {q : Char} {k : Nat} (hk : k ≤ 2) {t : List Char}
    (ht : t.head? ≠ some q) :
    closeLong q (List.replicate k q ++ t) = (List.replicate k q, t) := by
  match k, hk, t, ht with
  | 0, _, [], _ => rfl
  | 0, _, [c], ht => simpa [closeLong] using ht
  | 0, _, c :: d :: t, ht =>
    have hc : c ≠ q := by simpa using ht
    simp [closeLong, hc]
  | 1, _, [], _ => simp [closeLong]
  | 1, _, c :: t, ht =>
    have hc : c ≠ q := by simpa using ht
    simp [closeLong, hc]
  | 2, _, t, _ => simp [closeLong]

theorem readLongBasic?_quotes {k : Nat} (hk : k ≤ 2) {t : List Char} (ht : t.head? ≠ some '"') :
    readLongBasic? false (List.replicate k '"' ++ '"' :: '"' :: '"' :: t) =
      some (List.replicate k '"', t) := by
  have hclose := closeLong_replicate hk ht
  match k, hk with
  | 0, _ | 1, _ | 2, _ => simpa [readLongBasic?] using hclose

/-- A character stands for itself, a quote as long as no two others follow. -/
theorem readLongBasic?_cons {c : Char} {t : List Char} (hplain : isPlain c ∨ c = '\n')
    (hslash : c ≠ '\\') (hquote : c = '"' → ∀ u, t ≠ '"' :: '"' :: u) :
    readLongBasic? false (c :: t) = put? (some c) (readLongBasic? false t) := by
  have hreturn : c ≠ '\r' := fun h => absurd (h ▸ hplain) (by decide)
  rcases hplain with hplain | rfl
  · rw [readLongBasic?.eq_def]
    split <;> simp_all
  · simp [readLongBasic?]

theorem Escaped.readLongBasic? {c : Char} {e : List Char} (h : Escaped c e) (t : List Char) :
    readLongBasic? false (e ++ t) = put? (some c) (readLongBasic? false t) := by
  cases h with
  | letter l h =>
    rw [← h]
    unfold letterEscape? at h
    split at h <;> simp_all [Toml.readLongBasic?, endsLine, isWhite]
  | code w x y z h => simp [Toml.readLongBasic?, h]
  | itself hplain hquote hslash =>
    exact readLongBasic?_cons (.inl hplain) hslash fun h => absurd h hquote

theorem exists_head_escapeLong (run : Nat) (c : Char) (s : List Char) :
    ∃ d t, escapeLong run (c :: s) = d :: t ∧ (c ≠ '\n' → isPlain d) ∧
      (d = '"' → c = '"' ∧ run ≠ 2) := by
  rw [escapeLong]
  split_ifs with hquote hrun hline
  · exact ⟨'\\', _, rfl, fun _ => by decide, fun h => absurd h (by decide)⟩
  · exact ⟨'"', _, rfl, fun _ => by decide, fun _ => ⟨hquote, hrun⟩⟩
  · exact ⟨'\n', _, rfl, fun h => absurd hline h, fun h => absurd h (by decide)⟩
  · obtain ⟨d, t, hd, hplain, hne⟩ := (escaped_escape c).exists_head
    exact ⟨d, t ++ escapeLong 0 s, by rw [hd, List.cons_append], fun _ => hplain,
      fun h => absurd h hne⟩

/-- In the body of a long basic form, what starts with a quote is a quote of the
text, or the end. -/
theorem quote_of_escapeLong {run : Nat} {s t u : List Char}
    (h : escapeLong run s ++ t = '"' :: u) :
    s = [] ∨ ∃ s', s = '"' :: s' ∧ run ≠ 2 ∧ escapeLong (run + 1) s' ++ t = u := by
  obtain _ | ⟨c, s⟩ := s
  · exact .inl rfl
  obtain ⟨d, v, hhead, -, hd⟩ := exists_head_escapeLong run c s
  rw [hhead, List.cons_append] at h
  obtain ⟨rfl, hrun⟩ := hd (List.cons.inj h).1
  rw [escapeLong, if_pos rfl, if_neg hrun] at hhead
  rw [← (List.cons.inj hhead).2] at h
  exact .inr ⟨s, rfl, hrun, (List.cons.inj h).2⟩

theorem readLongBasic?_escapeLong (s : List Char) {t : List Char} (ht : t.head? ≠ some '"')
    (run : Nat) (hle : run ≤ 2) :
    readLongBasic? false (escapeLong run s ++ '"' :: '"' :: '"' :: t) = some (s, t) := by
  induction s generalizing run with
  | nil => exact readLongBasic?_quotes (Nat.zero_le 2) ht
  | cons c s ih =>
    rw [escapeLong]
    split_ifs with hquote hrun hline
    · have hread := (Escaped.letter (c := c) '"' (by rw [hquote]; rfl)).readLongBasic?
        (escapeLong 0 s ++ '"' :: '"' :: '"' :: t)
      rw [ih 0 (by omega), put?_some] at hread
      exact hread
    · have hread := ih (run + 1) (by omega)
      by_cases htwo : ∃ u, escapeLong (run + 1) s ++ '"' :: '"' :: '"' :: t = '"' :: '"' :: u
      · -- Only quotes are left, two of the text at most.
        obtain ⟨u, hu⟩ := htwo
        rcases quote_of_escapeLong hu with rfl | ⟨s, rfl, hone, hu⟩
        · rw [hquote]
          exact readLongBasic?_quotes (k := 1) (by omega) ht
        · rcases quote_of_escapeLong hu with rfl | ⟨s, rfl, htwo, -⟩
          · obtain rfl : run = 0 := by omega
            rw [hquote]
            simpa [escapeLong] using readLongBasic?_quotes (k := 2) (by omega) ht
          · omega
      · rw [List.cons_append, readLongBasic?_cons (.inl (by decide)) (by decide)
          (fun _ u hu => htwo ⟨u, hu⟩), hread, put?_some, hquote]
    · rw [List.cons_append,
        readLongBasic?_cons (.inr rfl) (by decide) (fun h => absurd h (by decide)),
        ih 0 (by omega), put?_some, hline]
    · rw [List.append_assoc, (escaped_escape c).readLongBasic?, ih 0 (by omega), put?_some]

/-- A character stands for itself, an apostrophe as long as no two others
follow. -/
theorem readLongLiteral?_cons {c : Char} {t : List Char} (hplain : isPlain c ∨ c = '\n')
    (hquote : c = '\'' → ∀ u, t ≠ '\'' :: '\'' :: u) :
    readLongLiteral? (c :: t) = put? (some c) (readLongLiteral? t) := by
  have hreturn : c ≠ '\r' := fun h => absurd (h ▸ hplain) (by decide)
  rcases hplain with hplain | rfl
  · rw [readLongLiteral?.eq_def]
    split <;> simp_all
  · simp [readLongLiteral?]

theorem readLongLiteral?_quotes {k : Nat} (hk : k ≤ 2) {t : List Char}
    (ht : t.head? ≠ some '\'') :
    readLongLiteral? (List.replicate k '\'' ++ '\'' :: '\'' :: '\'' :: t) =
      some (List.replicate k '\'', t) := by
  have hclose := closeLong_replicate hk ht
  match k, hk with
  | 0, _ | 1, _ | 2, _ => simpa [readLongLiteral?] using hclose

theorem readLongLiteral?_append {s : List Char} (hplain : ∀ c ∈ s, isPlain c ∨ c = '\n')
    (htriple : hasTriple '\'' s = false) {t : List Char} (ht : t.head? ≠ some '\'') :
    readLongLiteral? (s ++ '\'' :: '\'' :: '\'' :: t) = some (s, t) := by
  induction s with
  | nil => exact readLongLiteral?_quotes (Nat.zero_le 2) ht
  | cons c s ih =>
    have hread := ih (fun d hd => hplain d (List.mem_cons_of_mem _ hd)) (by
      match s, htriple with
      | [], _ | [_], _ => rfl
      | _ :: _ :: _, h => exact (Bool.or_eq_false_iff.1 h).2)
    by_cases htwo : c = '\'' ∧ ∃ u, s ++ '\'' :: '\'' :: '\'' :: t = '\'' :: '\'' :: u
    · -- Only apostrophes are left, two of the text at most.
      obtain ⟨rfl, u, hu⟩ := htwo
      match s, hu, htriple with
      | [], _, _ => exact readLongLiteral?_quotes (k := 1) (by omega) ht
      | [d], hu, _ =>
        obtain rfl : d = '\'' := (List.cons.inj hu).1
        exact readLongLiteral?_quotes (k := 2) (by omega) ht
      | d :: e :: s, hu, htriple =>
        simp only [List.cons_append, List.cons.injEq] at hu
        simp [hasTriple, hu.1, hu.2.1] at htriple
    · rw [List.cons_append, readLongLiteral?_cons (hplain c List.mem_cons_self)
        (fun hc u hu => htwo ⟨hc, u, hu⟩), hread, put?_some]

/-! ## Whole texts -/

/-- What may follow a value: a comma, a closing bracket or a line end. -/
def Ends (t : List Char) : Prop := ∃ c ∈ [',', ']', '\n'], t.head? = some c

theorem Ends.head?_ne {t : List Char} (ht : Ends t) {d : Char} (hd : d ∉ [',', ']', '\n']) :
    t.head? ≠ some d := by
  obtain ⟨c, hc, hhead⟩ := ht
  rintro h
  rw [hhead, Option.some.injEq] at h
  exact hd (h ▸ hc)

/-- The line end after the opening quotes is dropped, and nothing else. -/
theorem dropLineEnd_append {s body : List Char}
    (h : '\n' ∉ s → ∃ c t, body = c :: t ∧ isPlain c) :
    dropLineEnd ((if '\n' ∈ s then ['\n'] else []) ++ body) = body := by
  split_ifs with hline
  · rfl
  · obtain ⟨c, t, rfl, hplain⟩ := h hline
    rw [List.nil_append, dropLineEnd.eq_def]
    split
    · exact absurd hplain (by simp_all [isPlain])
    · exact absurd hplain (by simp_all [isPlain])
    · rfl

theorem readValue?_quote (fuel depth : Nat) {t : List Char} (h : ∀ u, t ≠ '"' :: '"' :: u) :
    readValue? (fuel + 1) depth ('"' :: t) =
      (readBasic? t).map fun r => (.str (String.ofList r.1), r.2) := by
  rw [readValue?]
  exact fun u hu => h u hu

theorem readValue?_apostrophe (fuel depth : Nat) {t : List Char}
    (h : ∀ u, t ≠ '\'' :: '\'' :: u) :
    readValue? (fuel + 1) depth ('\'' :: t) =
      (readLiteral? t).map fun r => (.str (String.ofList r.1), r.2) := by
  rw [readValue?]
  exact fun u hu => h u hu

theorem readValue?_basic (fuel depth : Nat) (s : List Char) {t : List Char} (ht : Ends t) :
    readValue? (fuel + 1) depth (basic s ++ t) = some (.str (String.ofList s), t) := by
  have hthree : ∀ u, s.flatMap escape ++ '"' :: t ≠ '"' :: '"' :: u := by
    intro u hu
    cases s with
    | nil =>
      rw [List.flatMap_nil, List.nil_append] at hu
      exact ht.head?_ne (d := '"') (by decide) (by rw [(List.cons.inj hu).2]; rfl)
    | cons c s =>
      obtain ⟨d, e, hd, -, hquote⟩ := (escaped_escape c).exists_head
      rw [List.flatMap_cons, hd] at hu
      exact hquote (List.cons.inj hu).1
  have hbasic : basic s ++ t = '"' :: (s.flatMap escape ++ '"' :: t) := by simp [basic]
  rw [hbasic, readValue?_quote _ _ hthree, readBasic?_flatMap, Option.map_some]

theorem readValue?_literal (fuel depth : Nat) {s : List Char} (hplain : ∀ c ∈ s, isPlain c)
    (hquote : '\'' ∉ s) (hne : s ≠ []) (t : List Char) :
    readValue? (fuel + 1) depth (literal s ++ t) = some (.str (String.ofList s), t) := by
  have hthree : ∀ u, s ++ '\'' :: t ≠ '\'' :: '\'' :: u := by
    intro u hu
    obtain ⟨c, s, rfl⟩ := List.exists_cons_of_ne_nil hne
    rw [List.cons_append, List.cons.injEq] at hu
    exact hquote (hu.1 ▸ List.mem_cons_self)
  have hliteral : literal s ++ t = '\'' :: (s ++ '\'' :: t) := by simp [literal]
  rw [hliteral, readValue?_apostrophe _ _ hthree, readLiteral?_append hplain hquote,
    Option.map_some]

theorem readValue?_longBasic (fuel depth : Nat) (s : List Char) {t : List Char} (ht : Ends t) :
    readValue? (fuel + 1) depth (long '"' s (escapeLong 0 s) ++ t) =
      some (.str (String.ofList s), t) := by
  have hhead : '\n' ∉ s →
      ∃ c u, escapeLong 0 s ++ '"' :: '"' :: '"' :: t = c :: u ∧ isPlain c := by
    intro hline
    cases s with
    | nil => exact ⟨'"', _, rfl, by decide⟩
    | cons c s =>
      obtain ⟨d, u, hd, hplain, -⟩ := exists_head_escapeLong 0 c s
      exact ⟨d, u ++ '"' :: '"' :: '"' :: t, by rw [hd, List.cons_append],
        hplain fun h => hline (h ▸ List.mem_cons_self)⟩
  have hlong : long '"' s (escapeLong 0 s) ++ t = '"' :: '"' :: '"' ::
      ((if '\n' ∈ s then ['\n'] else []) ++ (escapeLong 0 s ++ '"' :: '"' :: '"' :: t)) := by
    simp [long]
  rw [hlong, readValue?, dropLineEnd_append hhead,
    readLongBasic?_escapeLong s (ht.head?_ne (by decide)) 0 (by decide), Option.map_some]

theorem readValue?_longLiteral (fuel depth : Nat) {s : List Char}
    (hplain : ∀ c ∈ s, isPlain c ∨ c = '\n') (htriple : hasTriple '\'' s = false) {t : List Char}
    (ht : Ends t) :
    readValue? (fuel + 1) depth (long '\'' s s ++ t) = some (.str (String.ofList s), t) := by
  have hhead : '\n' ∉ s → ∃ c u, s ++ '\'' :: '\'' :: '\'' :: t = c :: u ∧ isPlain c := by
    intro hline
    cases s with
    | nil => exact ⟨'\'', _, rfl, by decide⟩
    | cons c s =>
      refine ⟨c, _, rfl, (hplain c List.mem_cons_self).resolve_right fun h => ?_⟩
      exact hline (h ▸ List.mem_cons_self)
  have hlong : long '\'' s s ++ t = '\'' :: '\'' :: '\'' ::
      ((if '\n' ∈ s then ['\n'] else []) ++ (s ++ '\'' :: '\'' :: '\'' :: t)) := by
    simp [long]
  rw [hlong, readValue?, dropLineEnd_append hhead,
    readLongLiteral?_append hplain htriple (ht.head?_ne (by decide)), Option.map_some]

/-- A text without control characters. -/
theorem isPlain_of_mem {s : List Char} (h : !s.any isControl) {c : Char} (hc : c ∈ s) :
    isPlain c ∨ c = '\n' := by
  have hcontrol : isControl c = false := by
    simp only [Bool.not_eq_true', List.any_eq_false] at h
    simpa using h c hc
  by_cases hline : c = '\n'
  · exact .inr hline
  · exact .inl (isPlain_of_not_isControl hcontrol hline)

theorem readValue?_writeString (fuel depth : Nat) (s : String) {t : List Char} (ht : Ends t) :
    readValue? (fuel + 1) depth (writeString s ++ t) = some (.str s, t) := by
  have hread : readValue? (fuel + 1) depth (writeString s ++ t) =
      some (.str (String.ofList s.toList), t) := by
    simp only [writeString, formOf]
    split_ifs with hbasic hliteral hlong hlongLiteral hline
    · exact readValue?_basic fuel depth s.toList ht
    · obtain ⟨hcontrol, hline, hquote⟩ := hliteral
      refine readValue?_literal fuel depth (fun c hc => ?_) hquote (fun h => ?_) t
      · exact (isPlain_of_mem hcontrol hc).resolve_right fun h => hline (h ▸ hc)
      · simp [h] at hbasic
    · exact readValue?_longBasic fuel depth s.toList ht
    · obtain ⟨hcontrol, htriple⟩ := hlongLiteral
      exact readValue?_longLiteral fuel depth (fun c hc => isPlain_of_mem hcontrol hc)
        (by simpa using htriple) ht
    · exact readValue?_longBasic fuel depth s.toList ht
    · exact readValue?_basic fuel depth s.toList ht
  rwa [String.ofList_toList] at hread

/-! ## Keys -/

theorem readSimpleKey?_bare {s : List Char} (hne : s ≠ []) (hall : ∀ d ∈ s, isBareChar d)
    {c : Char} (hc : isBareChar c = false) (t : List Char) :
    readSimpleKey? (s ++ c :: t) = some (String.ofList s, c :: t) := by
  have htake : (s ++ c :: t).takeWhile isBareChar = s := by
    rw [List.takeWhile_append_of_pos hall]
    simp [hc]
  have hdrop : (s ++ c :: t).dropWhile isBareChar = c :: t := by
    rw [List.dropWhile_append_of_pos hall]
    simp [hc]
  obtain ⟨d, s, rfl⟩ := List.exists_cons_of_ne_nil hne
  have hd : isBareChar d := hall d List.mem_cons_self
  have hquote : d ≠ '"' := fun h => absurd (h ▸ hd) (by decide)
  have hapostrophe : d ≠ '\'' := fun h => absurd (h ▸ hd) (by decide)
  rw [readSimpleKey?, htake, hdrop]
  · rfl
  · exact fun u hu => hquote (List.cons.inj hu).1
  · exact fun u hu => hapostrophe (List.cons.inj hu).1

/-- A key is read back where a character follows that no bare key has. -/
theorem readSimpleKey?_writeKey (s : String) {c : Char} (hc : isBareChar c = false)
    (t : List Char) : readSimpleKey? (writeKey s ++ c :: t) = some (s, c :: t) := by
  have hread : readSimpleKey? (writeKey s ++ c :: t) = some (String.ofList s.toList, c :: t) := by
    simp only [writeKey]
    split_ifs with hbare hbasic hliteral
    · exact readSimpleKey?_bare hbare.1 (fun d hd => List.all_eq_true.1 hbare.2 d hd) hc t
    · simp [basic, readSimpleKey?, readBasic?_flatMap]
    · obtain ⟨hcontrol, hline, hquote⟩ := hliteral
      have hplain : ∀ c ∈ s.toList, isPlain c := fun c hc =>
        (isPlain_of_mem hcontrol hc).resolve_right fun h => hline (h ▸ hc)
      simp [literal, readSimpleKey?, readLiteral?_append hplain hquote]
    · simp [basic, readSimpleKey?, readBasic?_flatMap]
  rwa [String.ofList_toList] at hread

/-- What a key may start with. -/
def isKeyHead (c : Char) : Bool := isBareChar c || c == '"' || c == '\''

theorem exists_head_writeKey (s : String) : ∃ c t, writeKey s = c :: t ∧ isKeyHead c := by
  simp only [writeKey]
  split_ifs with hbare hbasic hliteral
  · obtain ⟨hne, hall⟩ := hbare
    obtain ⟨c, t, ht⟩ := List.exists_cons_of_ne_nil hne
    have hc : isBareChar c := List.all_eq_true.1 hall c (ht ▸ List.mem_cons_self)
    exact ⟨c, t, ht, by simp [isKeyHead, hc]⟩
  · exact ⟨'"', _, rfl, by decide⟩
  · exact ⟨'\'', _, rfl, by decide⟩
  · exact ⟨'"', _, rfl, by decide⟩

end Relocate.Toml
