import Mathlib.Data.List.Basic
import Relocate.Path.Basic

/-!
# The order of paths, and lists in order

Paths are compared component by component, so two of them are equal in order
when they have the same components, whatever their spelling. Sorting is
stable: it keeps the order of elements that are equal in order
(`equals_mergeSort`), and a sorted list is known by these (`Ascends.eq`).

* `mergeSort_append_perm`: of a list whose elements are all different in order,
  only the members count for sorting, not the order in which they come.
* `exists_mergeSort_concat`: sorting one element more puts it among the others.
* `climbs_eraseRepsBy`, `find?_eraseRepsBy`: a sorted list with repetitions
  taken out is strictly sorted, and finds what the list found.
* `Climbs.eq`: a strictly sorted list is known by what it finds.
-/
namespace Relocate

open Std

/-! ## Sorted lists -/

section Sorted

variable {α β : Type} {cmp : α → α → Ordering}

/-- Sorted, repetitions allowed. -/
def Ascends (cmp : α → α → Ordering) (l : List α) : Prop := l.Pairwise fun a b => (cmp a b).isLE

/-- Sorted, without repetitions. -/
def Climbs (cmp : α → α → Ordering) (l : List α) : Prop := l.Pairwise fun a b => cmp a b = .lt

/-- The elements of a list that are equal in order to `a`. -/
def equals (cmp : α → α → Ordering) (a : α) (l : List α) : List α :=
  l.filter fun b => cmp a b = .eq

theorem Climbs.ascends {l : List α} (h : Climbs cmp l) : Ascends cmp l :=
  List.Pairwise.imp (fun hab => by rw [hab]; rfl) h

theorem mem_equals {a b : α} {l : List α} : b ∈ equals cmp a l ↔ b ∈ l ∧ cmp a b = .eq := by
  simp [equals]

theorem equals_append (a : α) (l m : List α) :
    equals cmp a (l ++ m) = equals cmp a l ++ equals cmp a m := List.filter_append l m

theorem head?_equals (a : α) (l : List α) :
    (equals cmp a l).head? = l.find? fun b => cmp a b = .eq := List.head?_filter

/-- What is compared by a part of it is compared in a lawful way. -/
theorem transCmp_on [TransCmp cmp] (f : β → α) : TransCmp fun a b => cmp (f a) (f b) where
  eq_swap := fun {a b} => @OrientedCmp.eq_swap α cmp _ (f a) (f b)
  isLE_trans := fun {a b c} => @TransCmp.isLE_trans α cmp _ (f a) (f b) (f c)

variable [TransCmp cmp]

theorem eq_of_cmp_eq {a b c : α} (hb : cmp a b = .eq) (hc : cmp a c = .eq) : cmp b c = .eq :=
  TransCmp.eq_trans (OrientedCmp.eq_symm hb) hc

theorem isLE_total (a b : α) : ((cmp a b).isLE || (cmp b a).isLE) = true := by
  rw [@OrientedCmp.eq_swap α cmp _ a b]
  cases cmp b a <;> rfl

theorem ascends_mergeSort (l : List α) : Ascends cmp (l.mergeSort fun a b => (cmp a b).isLE) :=
  List.pairwise_mergeSort (fun _ _ _ => TransCmp.isLE_trans) isLE_total l

/-- Sorting keeps the order of what is equal in order. -/
theorem equals_mergeSort (a : α) (l : List α) :
    equals cmp a (l.mergeSort fun a b => (cmp a b).isLE) = equals cmp a l := by
  have hsorted : Ascends cmp (equals cmp a l) := by
    refine List.Pairwise.imp_of_mem ?_ (List.pairwise_of_forall fun _ _ => trivial)
    intro b c hb hc _
    rw [eq_of_cmp_eq (mem_equals.1 hb).2 (mem_equals.1 hc).2]
    rfl
  -- A sorted part of the list keeps its order, and this part keeps its length.
  have hpart : (equals cmp a l).Sublist (l.mergeSort fun a b => (cmp a b).isLE) :=
    List.sublist_mergeSort (fun _ _ _ => TransCmp.isLE_trans) isLE_total hsorted List.filter_sublist
  have hboth := hpart.filter fun b => cmp a b = .eq
  simp only [equals, List.filter_filter, Bool.and_self] at hboth
  refine (hboth.eq_of_length ?_).symm
  exact (((List.mergeSort_perm l _).filter _).length_eq).symm

/-- Sorted lists with the same elements in each class of equal ones are equal. -/
theorem Ascends.eq {l m : List α} (hl : Ascends cmp l) (hm : Ascends cmp m)
    (h : ∀ a, equals cmp a l = equals cmp a m) : l = m := by
  induction l generalizing m with
  | nil =>
    cases m with
    | nil => rfl
    | cons b m =>
      have hb : b ∈ equals cmp b [] := by
        rw [h b]
        exact mem_equals.2 ⟨List.mem_cons_self, ReflCmp.compare_self⟩
      simp [equals] at hb
  | cons a l ih =>
    cases m with
    | nil =>
      have ha : a ∈ equals cmp a [] := by
        rw [← h a]
        exact mem_equals.2 ⟨List.mem_cons_self, ReflCmp.compare_self⟩
      simp [equals] at ha
    | cons b m =>
      have hle : (cmp a b).isLE := by
        have hb : b ∈ equals cmp b (a :: l) := by
          rw [h b]
          exact mem_equals.2 ⟨List.mem_cons_self, ReflCmp.compare_self⟩
        rcases List.mem_cons.1 (mem_equals.1 hb).1 with rfl | hb
        · exact ReflCmp.isLE_rfl
        · exact (List.pairwise_cons.1 hl).1 b hb
      have hge : (cmp b a).isLE := by
        have ha : a ∈ equals cmp a (b :: m) := by
          rw [← h a]
          exact mem_equals.2 ⟨List.mem_cons_self, ReflCmp.compare_self⟩
        rcases List.mem_cons.1 (mem_equals.1 ha).1 with rfl | ha
        · exact ReflCmp.isLE_rfl
        · exact (List.pairwise_cons.1 hm).1 a ha
      have hab : cmp a b = .eq := OrientedCmp.isLE_antisymm hle hge
      obtain rfl : a = b := by
        have hfirst := h a
        simp only [equals, List.filter_cons, ReflCmp.compare_self, hab, decide_true, if_true]
          at hfirst
        exact (List.cons.inj hfirst).1
      refine congrArg (a :: ·)
        (ih (List.Pairwise.of_cons hl) (List.Pairwise.of_cons hm) fun c => ?_)
      have hc := h c
      simp only [equals, List.filter_cons] at hc ⊢
      split at hc
      · exact (List.cons.inj hc).2
      · exact hc

theorem mergeSort_congr {l m : List α} (h : ∀ a, equals cmp a l = equals cmp a m) :
    (l.mergeSort fun a b => (cmp a b).isLE) = m.mergeSort fun a b => (cmp a b).isLE :=
  (ascends_mergeSort l).eq (ascends_mergeSort m) fun a => by
    rw [equals_mergeSort, equals_mergeSort, h a]

/-- Elements that are all different in order may come in any order, behind
whatever comes first. -/
theorem mergeSort_append_perm (early : List α) {l m : List α} (h : l.Perm m)
    (hl : l.Pairwise fun a b => cmp a b ≠ .eq) :
    ((early ++ l).mergeSort fun a b => (cmp a b).isLE) =
      (early ++ m).mergeSort fun a b => (cmp a b).isLE := by
  refine mergeSort_congr fun a => ?_
  rw [equals_append, equals_append]
  refine congrArg (equals cmp a early ++ ·) ?_
  have hperm : (equals cmp a l).Perm (equals cmp a m) := h.filter _
  have hdiffer : (equals cmp a l).Pairwise fun a b => cmp a b ≠ .eq := hl.filter _
  match hlist : equals cmp a l with
  | [] =>
    rw [hlist] at hperm
    exact hperm.symm.eq_nil.symm
  | [b] =>
    rw [hlist] at hperm
    exact hperm.symm.eq_singleton.symm
  | b :: c :: rest =>
    rw [hlist] at hdiffer
    have hb : b ∈ equals cmp a l := by simp [hlist]
    have hc : c ∈ equals cmp a l := by simp [hlist]
    exact absurd (eq_of_cmp_eq (mem_equals.1 hb).2 (mem_equals.1 hc).2)
      ((List.pairwise_cons.1 hdiffer).1 c List.mem_cons_self)

/-- The last element of a list finds its place among the others. -/
theorem exists_mergeSort_concat (l : List α) (a : α) :
    ∃ before after, ((l ++ [a]).mergeSort fun a b => (cmp a b).isLE) = before ++ a :: after ∧
      (l.mergeSort fun a b => (cmp a b).isLE) = before ++ after := by
  have hm : Ascends cmp (l.mergeSort fun a b => (cmp a b).isLE) := ascends_mergeSort l
  have hl := fun c => @equals_mergeSort α cmp _ c l
  generalize (l.mergeSort fun a b => (cmp a b).isLE) = m at hm hl
  have hsplit :
      m.takeWhile (fun b => (cmp b a).isLE) ++ m.dropWhile (fun b => (cmp b a).isLE) = m :=
    List.takeWhile_append_dropWhile
  refine ⟨_, _, ?_, hsplit.symm⟩
  have hbefore : ∀ b ∈ m.takeWhile (fun b => (cmp b a).isLE), (cmp b a).isLE :=
    fun b hb => List.all_eq_true.1 List.all_takeWhile b hb
  rw [← hsplit] at hm hl
  obtain ⟨hm₁, hm₂, hm₁₂⟩ := List.pairwise_append.1 hm
  -- The first element behind `a` is greater, so they all are.
  have hafter : ∀ b ∈ m.dropWhile (fun b => (cmp b a).isLE), cmp a b = .lt := by
    intro b hb
    obtain ⟨c, rest, hrest⟩ := List.exists_cons_of_ne_nil (List.ne_nil_of_mem hb)
    have hc : cmp a c = .lt := by
      have hgt : ¬(cmp c a).isLE := by
        have hhead := List.head_dropWhile_not (fun b => (cmp b a).isLE) (l := m) (by simp [hrest])
        simpa [hrest] using hhead
      rw [@OrientedCmp.eq_swap α cmp _ a c]
      cases hca : cmp c a with
      | gt => rfl
      | _ => simp [hca] at hgt
    rw [hrest] at hb hm₂
    rcases List.mem_cons.1 hb with rfl | hb
    · exact hc
    · exact TransCmp.lt_of_lt_of_isLE hc ((List.pairwise_cons.1 hm₂).1 b hb)
  refine (ascends_mergeSort (l ++ [a])).eq ?_ fun c => ?_
  · refine List.pairwise_append.2 ⟨hm₁, List.pairwise_cons.2 ⟨fun b hb => ?_, hm₂⟩, ?_⟩
    · rw [hafter b hb]
      rfl
    · intro b hb c hc
      rcases List.mem_cons.1 hc with rfl | hc
      · exact hbefore b hb
      · exact hm₁₂ b hb c hc
  · rw [equals_mergeSort, equals_append, ← hl c, equals_append, List.append_cons, equals_append,
      equals_append]
    by_cases hca : cmp c a = .eq
    · have hnone : equals cmp c (m.dropWhile fun b => (cmp b a).isLE) = [] := by
        refine List.eq_nil_iff_forall_not_mem.2 fun b hb => ?_
        obtain ⟨hb, hcb⟩ := mem_equals.1 hb
        have hlt := hafter b hb
        rw [eq_of_cmp_eq hca hcb] at hlt
        cases hlt
      rw [hnone, List.append_nil, List.append_nil]
    · have hnone : equals cmp c [a] = [] := by simp [equals, hca]
      rw [hnone, List.append_nil, List.append_nil]

/-! ## Repetitions -/

omit [TransCmp cmp] in
theorem eraseRepsBy_loop (r : α → α → Bool) (l : List α) :
    ∀ (a : α) (acc : List α), List.eraseRepsBy.loop r a l acc =
      acc.reverse ++ List.eraseRepsBy.loop r a l [] := by
  induction l with
  | nil => simp [List.eraseRepsBy.loop]
  | cons b l ih =>
    intro a acc
    simp only [List.eraseRepsBy.loop]
    split
    · exact ih a acc
    · rw [ih b (a :: acc), ih b [a]]
      simp

omit [TransCmp cmp] in
theorem eraseRepsBy_cons_cons (r : α → α → Bool) (a b : α) (l : List α) :
    (a :: b :: l).eraseRepsBy r =
      if r a b then (a :: l).eraseRepsBy r else a :: (b :: l).eraseRepsBy r := by
  simp only [List.eraseRepsBy, List.eraseRepsBy.loop]
  split
  · rename_i h
    rw [if_pos h]
  · rename_i h
    rw [if_neg (by simp [h]), eraseRepsBy_loop]
    rfl

omit [TransCmp cmp] in
theorem eraseRepsBy_sublist (r : α → α → Bool) (l : List α) : (l.eraseRepsBy r).Sublist l := by
  match l with
  | [] => exact .slnil
  | [a] => exact List.Sublist.refl [a]
  | a :: b :: l =>
    rw [eraseRepsBy_cons_cons]
    split
    · exact (eraseRepsBy_sublist r (a :: l)).trans ((List.sublist_cons_self b l).cons_cons a)
    · exact (eraseRepsBy_sublist r (b :: l)).cons_cons a

variable {r : α → α → Bool} (hr : ∀ a b, r a b = true ↔ cmp a b = .eq)

include hr in
/-- Without repetitions a sorted list is strictly sorted. -/
theorem climbs_eraseRepsBy {l : List α} (h : Ascends cmp l) : Climbs cmp (l.eraseRepsBy r) := by
  match l with
  | [] => exact List.Pairwise.nil
  | [a] => exact List.pairwise_singleton _ a
  | a :: b :: l =>
    obtain ⟨ha, hbl⟩ := List.pairwise_cons.1 h
    obtain ⟨hb, hl⟩ := List.pairwise_cons.1 hbl
    rw [eraseRepsBy_cons_cons]
    split
    · exact climbs_eraseRepsBy (List.pairwise_cons.2 ⟨fun c hc => ha c (.tail b hc), hl⟩)
    · rename_i hne
      refine List.pairwise_cons.2 ⟨fun c hc => ?_, climbs_eraseRepsBy hbl⟩
      have hab : cmp a b = .lt := by
        have hle := ha b List.mem_cons_self
        rw [hr] at hne
        cases hcmp : cmp a b with
        | lt => rfl
        | eq => exact absurd hcmp hne
        | gt =>
          rw [hcmp] at hle
          cases hle
      rcases List.mem_cons.1 ((eraseRepsBy_sublist r (b :: l)).mem hc) with rfl | hc
      · exact hab
      · exact TransCmp.lt_of_lt_of_isLE hab (hb c hc)

include hr in
/-- Taking out repetitions leaves the first of each run to be found. -/
theorem find?_eraseRepsBy (a : α) (l : List α) :
    ((l.eraseRepsBy r).find? fun b => cmp a b = .eq) = l.find? fun b => cmp a b = .eq := by
  match l with
  | [] => rfl
  | [b] => rfl
  | b :: c :: l =>
    rw [eraseRepsBy_cons_cons]
    split
    · rename_i hbc
      rw [find?_eraseRepsBy a (b :: l), List.find?_cons, List.find?_cons]
      split
      · rfl
      · rename_i hb
        rw [List.find?_cons_of_neg]
        intro hc
        have hcb := OrientedCmp.eq_symm ((hr b c).1 hbc)
        exact absurd (TransCmp.eq_trans (of_decide_eq_true hc) hcb) (of_decide_eq_false hb)
    · rw [List.find?_cons, List.find?_cons, find?_eraseRepsBy a (c :: l)]

theorem Climbs.equals_eq {l : List α} (h : Climbs cmp l) (a : α) :
    equals cmp a l = (l.find? fun b => cmp a b = .eq).toList := by
  have hdiffer : (equals cmp a l).Pairwise fun b c => cmp b c = .lt := List.Pairwise.filter _ h
  rw [← head?_equals]
  match hlist : equals cmp a l with
  | [] => rfl
  | [b] => rfl
  | b :: c :: rest =>
    rw [hlist] at hdiffer
    have hb : b ∈ equals cmp a l := by simp [hlist]
    have hc : c ∈ equals cmp a l := by simp [hlist]
    have hlt := (List.pairwise_cons.1 hdiffer).1 c List.mem_cons_self
    rw [eq_of_cmp_eq (mem_equals.1 hb).2 (mem_equals.1 hc).2] at hlt
    cases hlt

/-- Strictly sorted lists that find the same are equal. -/
theorem Climbs.eq {l m : List α} (hl : Climbs cmp l) (hm : Climbs cmp m)
    (h : ∀ a, (l.find? fun b => cmp a b = .eq) = m.find? fun b => cmp a b = .eq) : l = m :=
  hl.ascends.eq hm.ascends fun a => by rw [hl.equals_eq, hm.equals_eq, h a]

/-- What a strictly sorted list finds without one of its elements. -/
theorem Climbs.find?_without {before after : List α} {b : α}
    (h : Climbs cmp (before ++ b :: after)) (a : α) :
    ((before ++ after).find? fun c => cmp a c = .eq) =
      if cmp a b = .eq then none else (before ++ b :: after).find? fun c => cmp a c = .eq := by
  split
  · rename_i hab
    obtain ⟨-, hbehind, hbefore⟩ := List.pairwise_append.1 h
    rw [List.find?_eq_none]
    intro c hc hac
    have hbc : cmp b c = .eq := eq_of_cmp_eq hab (of_decide_eq_true hac)
    rcases List.mem_append.1 hc with hc | hc
    · have hlt := hbefore c hc b List.mem_cons_self
      rw [OrientedCmp.eq_symm hbc] at hlt
      cases hlt
    · have hlt := (List.pairwise_cons.1 hbehind).1 c hc
      rw [hbc] at hlt
      cases hlt
  · rename_i hab
    rw [List.find?_append, List.find?_append, List.find?_cons_of_neg (by simpa using hab)]

end Sorted

/-! ## Paths -/

instance : TransCmp Component.order :=
  inferInstanceAs (TransCmp (compareLex (compareOn Component.rank) (compareOn Component.text)))

instance : LawfulEqCmp Component.order where
  compare_self := ReflCmp.compare_self
  eq_of_compare := by
    intro a b h
    rw [Component.order, Ordering.then_eq_eq] at h
    have hrank := LawfulEqCmp.eq_of_compare h.1
    have htext := LawfulEqCmp.eq_of_compare h.2
    cases a <;> cases b <;> simp_all [Component.rank, Component.text]

instance : TransCmp Path.order := transCmp_on Path.components

theorem Path.order_eq_iff {p q : Path} : p.order q = .eq ↔ p.components = q.components := by
  unfold order
  exact LawfulEqCmp.compare_eq_iff_eq

theorem Path.same_iff (p q : Path) : p.same q = true ↔ p.order q = .eq := by
  rw [order_eq_iff, same, beq_iff_eq]

/-- What two lists start with alike does not count for their order. -/
theorem compareLex_append_left {α : Type} {cmp : α → α → Ordering} [ReflCmp cmp]
    (u l m : List α) : List.compareLex cmp (u ++ l) (u ++ m) = List.compareLex cmp l m := by
  induction u with
  | nil => rfl
  | cons a u ih =>
    have ha : cmp a a = .eq := ReflCmp.compare_self
    rw [List.cons_append, List.cons_append, List.compareLex_cons_cons, ha, ih]
    rfl

end Relocate
