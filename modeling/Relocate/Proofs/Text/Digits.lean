import Mathlib.Algebra.Group.Nat.Defs
import Relocate.Text.Digits

/-!
# Digits read back

A number written in digits reads back as itself, in every base up to sixteen,
with zeros in front and in either case of the letters (`number?_map_toDigits`,
`number?_hex`, `number?_upperHex`). Decimal digits have no needless zero in
front.
-/
namespace Relocate.Text

theorem number?_concat (base : Nat) (t : List Char) (c : Char) :
    number? base (t ++ [c]) =
      (number? base t).bind fun n => (digit? base c).map (base * n + ·) := by
  simp only [number?, List.foldlM_append, List.foldlM_cons, List.foldlM_nil]
  cases t.foldlM (fun n c => (digit? base c).map (base * n + ·)) 0 <;> simp

/-- Digits read back, as long as each of them, written in the way of `f`, has
its own value. -/
theorem number?_map_toDigits {base : Nat} {f : Char → Char} (hone : 1 < base)
    (hf : ∀ d < base, digit? base (f d.digitChar) = some d) (n : Nat) :
    number? base ((Nat.toDigits base n).map f) = some n := by
  induction n using Nat.strongRecOn with
  | ind n ih =>
    rw [Nat.toDigits_eq_if hone]
    split
    · rename_i hn
      simp [number?, hf n hn]
    · have hless : n / base < n := Nat.div_lt_self (by omega) hone
      rw [List.map_append, List.map_singleton, number?_concat, ih _ hless, Option.bind_some,
        hf _ (Nat.mod_lt n (by omega)), Option.map_some, Nat.div_add_mod]

/-- Zeros in front say nothing. -/
theorem number?_zeros {base : Nat} (hbase : 0 < base) (k : Nat) (t : List Char) :
    number? base (List.replicate k '0' ++ t) = number? base t := by
  have hzero : digit? base '0' = some 0 := by simp [digit?, hbase]
  induction k with
  | zero => rfl
  | succ k ih =>
    rw [← ih, List.replicate_succ, List.cons_append]
    simp [number?, List.foldlM_cons, hzero]

/-! ## Base sixteen -/

theorem number?_hex (width n : Nat) : number? 16 (hex width n) = some n := by
  have hread : number? 16 ((Nat.toDigits 16 n).map id) = some n :=
    number?_map_toDigits (by decide) (by decide) n
  rw [List.map_id] at hread
  rw [hex, number?_zeros (by decide), hread]

theorem number?_upperHex (width n : Nat) : number? 16 (upperHex width n) = some n := by
  have hzero : ('0' : Char).toUpper = '0' := by decide
  rw [upperHex, hex, List.map_append, List.map_replicate, hzero, number?_zeros (by decide)]
  exact number?_map_toDigits (by decide) (by decide) n

theorem length_hex {width n : Nat} (hwidth : 0 < width) (h : n < 16 ^ width) :
    (hex width n).length = width := by
  have hle := (Nat.length_toDigits_le_iff (by decide) hwidth).2 h
  simp only [hex, List.length_append, List.length_replicate]
  omega

/-! ## Base ten -/

theorem number?_decimal (n : Nat) : number? 10 (decimal n) = some n := by
  have hread : number? 10 ((Nat.toDigits 10 n).map id) = some n :=
    number?_map_toDigits (by decide) (by decide) n
  rwa [List.map_id] at hread

theorem decimal_ne_nil (n : Nat) : decimal n ≠ [] := Nat.toDigits_ne_nil

theorem isDigit_of_mem_decimal {n : Nat} {c : Char} (h : c ∈ decimal n) : c.isDigit :=
  Nat.isDigit_of_mem_toDigits (by decide) (by decide) h

/-- Only zero starts with a zero. -/
theorem head?_decimal {n : Nat} (h : (decimal n).head? = some '0') : n = 0 := by
  induction n using Nat.strongRecOn with
  | ind n ih =>
    rw [decimal, Nat.toDigits_eq_if (by decide)] at h
    split at h
    · rename_i hn
      have hsmall : ∀ d < 10, [d.digitChar].head? = some '0' → d = 0 := by decide
      exact hsmall n hn h
    · rw [List.head?_append, Option.or_of_isSome (by simp)] at h
      have := ih (n / 10) (by omega) h
      omega

/-- Decimal digits have no needless zero in front. -/
theorem not_needless_zero (n : Nat) :
    ¬((decimal n).length ≠ 1 ∧ (decimal n).head? = some '0') := by
  rintro ⟨hlength, hhead⟩
  rw [head?_decimal hhead] at hlength
  exact hlength rfl

/-! ## Codes -/

theorem char?_toNat (c : Char) : char? c.toNat = some c := by
  have hvalid : c.toNat.isValidChar := c.valid
  rw [char?, if_pos hvalid, Char.ofNat_toNat]

end Relocate.Text
