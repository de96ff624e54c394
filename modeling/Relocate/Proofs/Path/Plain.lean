import Mathlib.Data.List.Flatten
import Relocate.Proofs.Bytes.Encoding
import Relocate.Proofs.Path.Below

/-!
# The plainest spelling of a path

Segments that say nothing can be dropped from a path (`plain`). What is left
has the same components, says the same, and is spelled with characters of the
path in their order, so it is no longer. The paths that a path lies in are
spelled like this (`ancestors_eq`).
-/
namespace Relocate

open Text

/-! ## Segments that say something -/

def said (ss : List (List Char)) : List (List Char) :=
  ss.filter fun s => (Component.ofSegment? s).isSome

theorem said_cons (s : List Char) (ss : List (List Char)) :
    said (s :: ss) = if (Component.ofSegment? s).isSome then s :: said ss else said ss :=
  List.filter_cons

@[simp] theorem said_said (ss : List (List Char)) : said (said ss) = said ss := by
  simp [said]

/-- A segment that says a component spells it. -/
theorem text_of_ofSegment? {s : List Char} {c : Component} (h : Component.ofSegment? s = some c) :
    c.text.toList = s ∧ c ≠ .root := by
  unfold Component.ofSegment? at h
  split at h
  · cases h
  · split at h
    · rename_i hup
      cases h
      exact ⟨by rw [hup]; rfl, by simp⟩
    · cases h
      exact ⟨by simp [Component.text], by simp⟩

theorem map_text_filterMap (ss : List (List Char)) :
    (ss.filterMap Component.ofSegment?).map (fun c => c.text.toList) = said ss := by
  induction ss with
  | nil => rfl
  | cons s ss ih =>
    rw [said_cons]
    cases h : Component.ofSegment? s with
    | none => simpa [h] using ih
    | some c => simp [h, ih, (text_of_ofSegment? h).1]

theorem filterMap_said (ss : List (List Char)) :
    (said ss).filterMap Component.ofSegment? = ss.filterMap Component.ofSegment? := by
  induction ss with
  | nil => rfl
  | cons s ss ih =>
    rw [said_cons]
    cases h : Component.ofSegment? s with
    | none => simpa [h] using ih
    | some c => simp [h, ih]

/-- Empty segments say nothing. -/
theorem said_filter (ss : List (List Char)) : said (ss.filter (!·.isEmpty)) = said ss := by
  rw [said, List.filter_filter, said]
  refine List.filter_congr fun s _ => ?_
  cases s with
  | nil => rfl
  | cons => simp

theorem filter_said (ss : List (List Char)) : (said ss).filter (!·.isEmpty) = said ss := by
  rw [said, List.filter_filter]
  refine List.filter_congr fun s _ => ?_
  cases s with
  | nil => rfl
  | cons => simp

theorem said_of_filter {ss ts : List (List Char)} (h : ss.filter (!·.isEmpty) = said ts) :
    said ss = said ts := by
  rw [← said_filter, h, said_said]

theorem byteLength_le_of_sublist {s t : List Char} (h : s.Sublist t) :
    byteLength s ≤ byteLength t := by
  induction h with
  | slnil => simp
  | cons c _ ih => simp only [byteLength_cons]; omega
  | cons_cons c _ ih => simp only [byteLength_cons]; omega

namespace Path

variable {p : Path} {first : List Char} {more : List (List Char)}

/-- The plainest path with the components of `p`. -/
def plain (p : Path) : Path := ofComponents p.components

theorem first_eq_nil_iff (h : p.segments = first :: more) (hp : p.text ≠ "") :
    first = [] ↔ p.isAbsolute := by
  obtain ⟨c, t, ht⟩ := List.exists_cons_of_ne_nil (show p.text.toList ≠ [] by simpa using hp)
  rw [segments, ht, List.splitOn_cons_eq_if_modifyHead] at h
  simp only [isAbsolute, ht, List.head?_cons]
  split at h
  · rename_i hc
    obtain rfl : c = '/' := by simpa using hc
    simp [(List.cons.inj h).1.symm]
  · rename_i hc
    obtain ⟨u, us, hus⟩ := List.exists_cons_of_ne_nil (List.splitOn_ne_nil '/' t)
    rw [hus, List.modifyHead_cons] at h
    have hne : c ≠ '/' := by simpa using hc
    simp [← (List.cons.inj h).1, hne]

/-- The text of an absolute path. -/
theorem toList_plain_of_isAbsolute (h : p.segments = first :: more) (habs : p.isAbsolute) :
    p.plain.text.toList = '/' :: ['/'].intercalate (said more) := by
  have hcomponents : p.components = .root :: more.filterMap Component.ofSegment? := by
    rw [components_eq h, front?, if_pos habs]
    rfl
  rw [plain, hcomponents, ofComponents, ← map_text_filterMap]
  simp [Function.comp_def]

/-- What a relative path starts with is spelled by its first segment. -/
theorem exists_front (hne : first ≠ []) (hrelative : p.isAbsolute = false) :
    ∃ c, p.front? first = some c ∧ c.text.toList = first ∧ c ≠ .root := by
  rw [front?, if_neg (by simp [hrelative])]
  split
  · rename_i hdot
    exact ⟨.here, rfl, hdot.symm, by simp⟩
  · rename_i hdot
    have hsays : (Component.ofSegment? first).isSome := by
      unfold Component.ofSegment?
      rw [if_neg (by simp [hne, hdot])]
      split <;> rfl
    obtain ⟨c, hc⟩ := Option.isSome_iff_exists.1 hsays
    exact ⟨c, hc, text_of_ofSegment? hc⟩

/-- The text of a relative path. -/
theorem toList_plain_of_relative (h : p.segments = first :: more) (hne : first ≠ [])
    (hrelative : p.isAbsolute = false) :
    p.plain.text.toList = ['/'].intercalate (first :: said more) := by
  obtain ⟨c, hfront, hfirst, hroot⟩ := exists_front hne hrelative
  have hcomponents : p.components = c :: more.filterMap Component.ofSegment? := by
    rw [components_eq h, hfront]
    rfl
  rw [plain, hcomponents, ← hfirst, ← map_text_filterMap]
  cases c <;> simp_all [ofComponents, Function.comp_def]

theorem isAbsolute_plain (hp : p.text ≠ "") : p.plain.isAbsolute = p.isAbsolute := by
  obtain ⟨first, more, h⟩ := List.exists_cons_of_ne_nil (List.splitOn_ne_nil '/' p.text.toList)
  have hfirst := first_eq_nil_iff h hp
  cases habs : p.isAbsolute with
  | true => simp [isAbsolute, toList_plain_of_isAbsolute h habs]
  | false =>
    obtain ⟨c, first, rfl⟩ := List.exists_cons_of_ne_nil
      (show first ≠ [] from fun e => by simp [hfirst.1 e] at habs)
    have hslash : '/' ∉ c :: first := (of_mem_splitOn (h ▸ List.mem_cons_self)).1
    have hc : c ≠ '/' := fun e => hslash (e ▸ List.mem_cons_self)
    rw [isAbsolute, toList_plain_of_relative h (by simp) habs]
    cases said more <;> simp [hc]

/-- The segments are those of the path that say something, behind the first. -/
theorem segments_plain (h : p.segments = first :: more) (hp : p.text ≠ "") :
    ∃ rest, p.plain.segments = first :: rest ∧ rest.filter (!·.isEmpty) = said more := by
  have hfirst := first_eq_nil_iff h hp
  have hslash : ∀ s ∈ first :: more, '/' ∉ s := fun s hs =>
    (of_mem_splitOn (show s ∈ p.segments from h ▸ hs)).1
  have hsaid : ∀ s ∈ said more, '/' ∉ s := fun s hs =>
    hslash s (List.mem_cons_of_mem _ (List.mem_filter.1 hs).1)
  cases habs : p.isAbsolute with
  | true =>
    rw [hfirst.2 habs]
    cases hmore : said more with
    | nil =>
      refine ⟨[[]], ?_, rfl⟩
      rw [segments, toList_plain_of_isAbsolute h habs, hmore]
      rfl
    | cons s ss =>
      refine ⟨said more, ?_, by rw [filter_said, hmore]⟩
      have hsplit := List.splitOn_intercalate '/' hsaid (by simp [hmore])
      rw [segments, toList_plain_of_isAbsolute h habs, List.splitOn_cons_eq_if_modifyHead,
        if_pos (by decide), hsplit]
  | false =>
    have hne : first ≠ [] := fun e => by simp [hfirst.1 e] at habs
    refine ⟨said more, ?_, filter_said more⟩
    rw [segments, toList_plain_of_relative h hne habs, List.splitOn_intercalate '/' ?_ (by simp)]
    exact List.forall_mem_cons.2 ⟨hslash first List.mem_cons_self, hsaid⟩

theorem said_segments_plain (p : Path) : said p.plain.segments = said p.segments := by
  by_cases hp : p.text = ""
  · obtain rfl : p = ⟨""⟩ := congrArg Path.mk hp
    rfl
  · obtain ⟨first, more, h⟩ := List.exists_cons_of_ne_nil (List.splitOn_ne_nil '/' p.text.toList)
    obtain ⟨rest, hrest, hfilter⟩ := segments_plain h hp
    have hsaid := said_of_filter hfilter
    rw [hrest, show p.segments = first :: more from h, said_cons, said_cons, hsaid]

theorem components_plain (p : Path) : p.plain.components = p.components := by
  by_cases hp : p.text = ""
  · obtain rfl : p = ⟨""⟩ := congrArg Path.mk hp
    rfl
  · obtain ⟨first, more, h⟩ := List.exists_cons_of_ne_nil (List.splitOn_ne_nil '/' p.text.toList)
    obtain ⟨rest, hrest, hfilter⟩ := segments_plain h hp
    have hsaid := said_of_filter hfilter
    rw [components_eq hrest, components_eq (show p.segments = first :: more from h), front?,
      isAbsolute_plain hp, ← filterMap_said rest, hsaid, filterMap_said, front?]

/-- The segments that are not empty spell the components below the root. -/
theorem filter_segments_plain (p : Path) : p.plain.segments.filter (!·.isEmpty) =
    (p.components.filter (· ≠ .root)).map fun c => c.text.toList := by
  by_cases hp : p.text = ""
  · obtain rfl : p = ⟨""⟩ := congrArg Path.mk hp
    rfl
  · obtain ⟨first, more, h⟩ := List.exists_cons_of_ne_nil (List.splitOn_ne_nil '/' p.text.toList)
    obtain ⟨rest, hrest, hfilter⟩ := segments_plain h hp
    have hmore : (more.filterMap Component.ofSegment?).filter (· ≠ .root) =
        more.filterMap Component.ofSegment? := by
      refine List.filter_eq_self.2 fun c hc => ?_
      obtain ⟨s, -, hs⟩ := List.mem_filterMap.1 hc
      simpa using (text_of_ofSegment? hs).2
    rw [hrest, components_eq h, List.filter_append, hmore, List.map_append, map_text_filterMap,
      List.filter_cons, hfilter]
    cases habs : p.isAbsolute with
    | true => simp [front?, habs, (first_eq_nil_iff h hp).2 habs]
    | false =>
      have hne : first ≠ [] := fun e => by simp [(first_eq_nil_iff h hp).1 e] at habs
      obtain ⟨c, hfront, hfirst, hroot⟩ := exists_front hne habs
      simp [hfront, hfirst, hroot, hne]

theorem intercalate_cons_eq (s : List Char) (ss : List (List Char)) :
    ['/'].intercalate (s :: ss) = s ++ ss.flatMap ('/' :: ·) := by
  induction ss generalizing s with
  | nil => simp
  | cons t ss ih => rw [List.intercalate_cons_cons, ih, List.flatMap_cons]; simp

theorem intercalate_prefix (ss ts : List (List Char)) :
    ['/'].intercalate ss <+: ['/'].intercalate (ss ++ ts) := by
  cases ss with
  | nil => simp
  | cons s ss =>
    rw [List.cons_append, intercalate_cons_eq, intercalate_cons_eq, List.flatMap_append,
      ← List.append_assoc]
    exact List.prefix_append _ _

/-- The characters are some of the path's, in their order. -/
theorem plain_sublist (hp : p.text ≠ "") : p.plain.text.toList.Sublist p.text.toList := by
  obtain ⟨first, more, h⟩ := List.exists_cons_of_ne_nil (List.splitOn_ne_nil '/' p.text.toList)
  have hfirst := first_eq_nil_iff h hp
  have htext : p.text.toList = first ++ more.flatMap ('/' :: ·) := by
    rw [← intercalate_cons_eq, ← h, List.intercalate_splitOn]
  have hsublist : ((said more).flatMap ('/' :: ·)).Sublist (more.flatMap ('/' :: ·)) :=
    List.filter_sublist.flatMap _
  cases habs : p.isAbsolute with
  | true =>
    rw [toList_plain_of_isAbsolute h habs]
    cases hmore : said more with
    | nil =>
      rw [List.intercalate_nil, List.singleton_sublist]
      exact List.mem_of_head? (by simpa [isAbsolute] using habs)
    | cons s ss =>
      rw [htext, hfirst.2 habs, intercalate_cons_eq]
      simpa [hmore] using hsublist
  | false =>
    have hne : first ≠ [] := fun e => by simp [hfirst.1 e] at habs
    rw [toList_plain_of_relative h hne habs, intercalate_cons_eq, htext]
    exact hsublist.append_left first

theorem text_ne_of_mem_components {c : Component} (hc : c ∈ p.components) : p.text ≠ "" := by
  intro hp
  obtain rfl : p = ⟨""⟩ := congrArg Path.mk hp
  exact List.not_mem_nil hc

theorem text_plain_ne (hp : p.text ≠ "") : p.plain.text ≠ "" := by
  obtain ⟨c, cs, hcs⟩ := List.exists_cons_of_ne_nil (components_ne_nil hp)
  exact text_ne_of_mem_components (c := c) (by simp [components_plain, hcs])

/-- With fewer components the plainest spelling stops earlier. -/
theorem plain_prefix {q : Path} {cs : List Component} (h : p.components = q.components ++ cs)
    (hq : q.components ≠ []) : q.plain.text.toList <+: p.plain.text.toList := by
  rw [plain, plain, h]
  obtain ⟨c, front, hfront⟩ := List.exists_cons_of_ne_nil hq
  rw [hfront]
  -- A root is spelled by the leading slash, any other component by its text.
  have hmore := fun ss => intercalate_prefix ss (cs.map fun c => c.text.toList)
  cases c with
  | root => simpa [ofComponents, Function.comp_def] using hmore (front.map fun c => c.text.toList)
  | here | up | name =>
    simpa [ofComponents, Function.comp_def] using
      hmore (_ :: front.map fun c => c.text.toList)

/-! ## Folders around a path -/

/-- Names can be put behind any path. -/
theorem exists_components_append (p : Path) {names : List String}
    (hnames : ∀ n ∈ names, IsName n) :
    ∃ q : Path, q.components = p.components ++ names.map .name := by
  induction names generalizing p with
  | nil => exact ⟨p, by simp⟩
  | cons n names ih =>
    obtain ⟨q, hq⟩ := ih (p.join ⟨n⟩) fun m hm => hnames m (List.mem_cons_of_mem n hm)
    exact ⟨q, by simp [hq, components_join_name p (hnames n List.mem_cons_self)]⟩

/-- What a name is put behind lies around it. -/
theorem parent?_join_name (p : Path) {n : String} (hn : IsName n) :
    (p.join ⟨n⟩).parent? = some p.plain := by
  rw [parent?, components_join_name p hn, List.reverse_append, List.reverse_singleton,
    List.singleton_append]
  simp [plain]

theorem ancestors_plain (p : Path) : p.plain.ancestors = p.ancestors := by
  rw [ancestors, components_plain, ancestors]

/-- The path itself, in its plainest spelling, is the first of those it lies
in; fewer components give the others. -/
theorem ancestors_eq {cs : List Component} {c : Component} (h : p.components = cs ++ [c]) :
    p.ancestors =
      p.plain :: (List.range cs.length).reverse.map fun n => ofComponents (cs.take (n + 1)) := by
  rw [ancestors, h, List.length_append, List.length_singleton, List.range_succ,
    List.reverse_append, List.reverse_singleton, List.singleton_append, List.map_cons,
    List.take_of_length_le (by simp), plain, h]
  refine congrArg _ (List.map_congr_left fun n hn => ?_)
  rw [List.take_append_of_le_length]
  simpa [Nat.succ_le_iff] using hn

theorem exists_ancestors (hp : p.text ≠ "") : ∃ around, p.ancestors = p.plain :: around := by
  obtain ⟨cs, c, hcs⟩ := (List.eq_nil_or_concat p.components).resolve_left (components_ne_nil hp)
  exact ⟨_, ancestors_eq (by rw [hcs, List.concat_eq_append])⟩

end Path

end Relocate
