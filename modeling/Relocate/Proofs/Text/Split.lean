import Relocate.Text.Split

/-!
# The end of a text

What stands behind the last separator is the last of the stretches between
separators (`getLast?_splitOn`), and it grows with the text as long as no
further separator comes (`afterLast_append`).
-/
namespace Relocate.Text

variable {c : Char} {t u v : List Char}

theorem not_mem_afterLast (c : Char) (t : List Char) : c ∉ afterLast c t := by
  intro h
  have hne := List.all_eq_true.1 List.all_takeWhile c (List.mem_reverse.1 h)
  simp at hne

theorem afterLast_suffix (c : Char) (t : List Char) : afterLast c t <:+ t := by
  have h := List.reverse_suffix.2 (List.takeWhile_prefix (l := t.reverse) (· != c))
  rwa [List.reverse_reverse] at h

theorem afterLast_append (h : c ∉ v) : afterLast c (t ++ v) = afterLast c t ++ v := by
  have hv : ∀ x ∈ v.reverse, (x != c) = true := by
    intro x hx
    rw [bne_iff_ne]
    rintro rfl
    exact h (List.mem_reverse.1 hx)
  rw [afterLast, List.reverse_append, List.takeWhile_append_of_pos hv, List.reverse_append,
    List.reverse_reverse]
  rfl

theorem afterLast_of_not_mem (h : c ∉ v) : afterLast c v = v :=
  afterLast_append (t := []) h

theorem afterLast_append_cons (c : Char) (u v : List Char) :
    afterLast c (u ++ c :: v) = afterLast c v := by
  have hstop : (c :: u.reverse).takeWhile (· != c) = [] := by simp
  rw [afterLast, List.reverse_append, List.reverse_cons, List.append_assoc, List.singleton_append,
    List.takeWhile_append, hstop, List.append_nil]
  split
  · rename_i h
    rw [afterLast, (List.takeWhile_prefix (· != c)).eq_of_length h]
  · rfl

/-- What stands before a separator does not reach the end. -/
theorem afterLast_cons_of_mem (h : c ∈ t) (x : Char) : afterLast c (x :: t) = afterLast c t := by
  obtain ⟨u, v, rfl⟩ := List.append_of_mem h
  rw [← List.cons_append, afterLast_append_cons, afterLast_append_cons]

theorem splitLast?_eq_some (h : splitLast? c t = some (u, v)) : t = u ++ c :: v ∧ c ∉ v := by
  unfold splitLast? at h
  split at h
  · cases h
  · rename_i d before hd
    cases h
    refine ⟨?_, not_mem_afterLast c t⟩
    obtain rfl : d = c := by
      have hhead := List.head?_dropWhile_not (· != c) t.reverse
      rw [hd] at hhead
      simpa using hhead
    have hsplit := List.takeWhile_append_dropWhile (p := (· != d)) (l := t.reverse)
    rw [hd] at hsplit
    have ht := congrArg List.reverse hsplit
    rw [List.reverse_reverse, List.reverse_append, List.reverse_cons, List.append_assoc] at ht
    exact ht.symm

theorem splitLast?_eq_none (h : splitLast? c t = none) : c ∉ t := by
  intro hmem
  unfold splitLast? at h
  split at h
  · rename_i hnil
    have hall := List.takeWhile_append_dropWhile (p := (· != c)) (l := t.reverse)
    rw [hnil, List.append_nil] at hall
    rw [← List.mem_reverse, ← hall, ← List.mem_reverse] at hmem
    exact not_mem_afterLast c t hmem
  · cases h

/-- The last stretch between separators is what stands behind the last one. -/
theorem getLast?_splitOn (c : Char) (t : List Char) :
    (t.splitOn c).getLast? = some (afterLast c t) := by
  cases h : splitLast? c t with
  | none =>
    have hnot := splitLast?_eq_none h
    rw [List.splitOn_eq_singleton hnot, afterLast_of_not_mem hnot]
    rfl
  | some p =>
    obtain ⟨u, v⟩ := p
    obtain ⟨rfl, hv⟩ := splitLast?_eq_some h
    rw [List.splitOn_append_cons_self, List.splitOn_eq_singleton hv, afterLast_append_cons,
      afterLast_of_not_mem hv]
    simp

end Relocate.Text
