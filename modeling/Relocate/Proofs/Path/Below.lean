import Relocate.Proofs.Path.Names

/-!
# Paths below a path

A scan root is written below the project's root and leads down from it
(`Descends`); what is found there is spelled by joining names. So the
components of a file are those of the root and the names on the way, and the
file as seen from the root has these names for components, whatever the
spelling of the root and the scan root is.

* `components_relativeTo?`: a path as seen from a path that it lies below.
* `segments_join`: joining paths joins their segments.
* `Descends.exists_names`: a path that leads down spells names.
-/
namespace Relocate

/-! ## Segments -/

theorem filterMap_dropSegments (n : Nat) (ss : List (List Char)) :
    (Path.dropSegments n ss).filterMap Component.ofSegment? =
      (ss.filterMap Component.ofSegment?).drop n := by
  induction ss generalizing n with
  | nil => simp [Path.dropSegments]
  | cons s ss ih =>
    unfold Path.dropSegments
    cases hs : Component.ofSegment? s with
    | none => simp [hs, ih]
    | some c =>
      cases n with
      | zero => simp [hs]
      | succ n => simp [hs, ih]

theorem dropSegments_suffix (n : Nat) (ss : List (List Char)) : Path.dropSegments n ss <:+ ss := by
  induction ss generalizing n with
  | nil => simp [Path.dropSegments]
  | cons s ss ih =>
    unfold Path.dropSegments
    split
    · exact (ih n).trans (List.suffix_cons s ss)
    · cases n with
      | zero => exact List.suffix_refl _
      | succ n => exact (ih n).trans (List.suffix_cons s ss)

/-- What is left starts with a segment that says something. -/
theorem isSome_of_dropSegments {n : Nat} {ss rest : List (List Char)} {s : List Char}
    (h : Path.dropSegments n ss = s :: rest) : (Component.ofSegment? s).isSome := by
  induction ss generalizing n with
  | nil => simp [Path.dropSegments] at h
  | cons t ss ih =>
    unfold Path.dropSegments at h
    split at h
    · exact ih h
    · rename_i ht
      cases n with
      | zero =>
        obtain ⟨rfl, -⟩ := List.cons.inj h
        exact Option.isSome_iff_ne_none.2 fun hnone => ht (by rw [hnone]; rfl)
      | succ n => exact ih h

namespace Path

/-- Segments of which the first says something, written down as a path, say
the same there. -/
theorem components_ofSegments {ss : List (List Char)} (hslash : ∀ s ∈ ss, '/' ∉ s)
    (hfirst : ∀ s rest, ss = s :: rest → (Component.ofSegment? s).isSome) :
    (⟨String.ofList (['/'].intercalate ss)⟩ : Path).components =
      ss.filterMap Component.ofSegment? := by
  cases ss with
  | nil => rfl
  | cons s rest =>
    have hs := hfirst s rest rfl
    have hne : s ≠ [] := by
      rintro rfl
      simp [Component.ofSegment?] at hs
    have hdot : s ≠ ['.'] := by
      rintro rfl
      simp [Component.ofSegment?] at hs
    have hseg : (⟨String.ofList (['/'].intercalate (s :: rest))⟩ : Path).segments = s :: rest := by
      rw [segments, String.toList_ofList]
      exact List.splitOn_intercalate '/' hslash (by simp)
    have habs : (⟨String.ofList (['/'].intercalate (s :: rest))⟩ : Path).isAbsolute = false := by
      obtain ⟨c, s', rfl⟩ := List.exists_cons_of_ne_nil hne
      have hc : c ≠ '/' := fun h => hslash _ List.mem_cons_self (by simp [h])
      cases rest <;> simp [isAbsolute, List.intercalate, hc]
    obtain ⟨c, hc⟩ := Option.isSome_iff_exists.1 hs
    rw [components_eq hseg, front?, habs, if_neg (by simp), if_neg hdot, hc,
      List.filterMap_cons_some hc]
    rfl

/-! ## Paths as seen from a path -/

theorem components_ne_nil {p : Path} (h : p.text ≠ "") : p.components ≠ [] := by
  have htext : p.text.toList ≠ [] := by simpa using h
  cases hseg : p.segments with
  | nil => exact absurd hseg (List.splitOn_ne_nil _ _)
  | cons first more =>
    rw [components_eq hseg, front?]
    split
    · simp
    · rename_i habs
      split
      · simp
      · rename_i hdot
        have hfirst : first ≠ [] := by
          rintro rfl
          obtain ⟨c, t, ht⟩ := List.exists_cons_of_ne_nil htext
          rw [segments, ht, List.splitOn_cons_eq_if_modifyHead] at hseg
          split at hseg
          · rename_i hc
            simp_all [isAbsolute]
          · cases hs : t.splitOn '/' with
            | nil => exact List.splitOn_ne_nil _ _ hs
            | cons u us => simp [hs] at hseg
        simp [Component.ofSegment?, hfirst, hdot]
        split <;> simp

/-- Behind a leading slash or dot, the components are what the segments say. -/
theorem filterMap_tail_segments {p : Path} {front : Component} {rest : List Component}
    (h : p.components = front :: rest) (hfront : front = .root ∨ front = .here) :
    p.segments.tail.filterMap Component.ofSegment? = rest := by
  obtain ⟨first, more, hseg⟩ : ∃ first more, p.segments = first :: more :=
    List.exists_cons_of_ne_nil (List.splitOn_ne_nil _ _)
  rw [components_eq hseg] at h
  rw [hseg, List.tail_cons]
  cases hf : p.front? first with
  | none =>
    -- No segment says a slash or a leading dot by itself.
    rw [hf] at h
    have hmem : front ∈ more.filterMap Component.ofSegment? := by
      rw [show more.filterMap Component.ofSegment? = front :: rest from h]
      exact List.mem_cons_self
    obtain ⟨s, -, hs⟩ := List.mem_filterMap.1 hmem
    unfold Component.ofSegment? at hs
    rcases hfront with rfl | rfl <;> split at hs <;> try split at hs
    all_goals cases hs
  | some c =>
    rw [hf] at h
    exact (List.cons.inj h).2

/-- Without a leading slash or dot, the components are what the segments say. -/
theorem filterMap_segments {p : Path} {front : Component} {rest : List Component}
    (h : p.components = front :: rest) (hroot : front ≠ .root) (hhere : front ≠ .here) :
    p.segments.filterMap Component.ofSegment? = front :: rest := by
  obtain ⟨first, more, hseg⟩ : ∃ first more, p.segments = first :: more :=
    List.exists_cons_of_ne_nil (List.splitOn_ne_nil _ _)
  have hcomps := components_eq hseg
  rw [h] at hcomps
  have hplain : p.front? first = Component.ofSegment? first := by
    unfold front? at hcomps ⊢
    split
    · rename_i habs
      rw [if_pos habs] at hcomps
      exact absurd (List.cons.inj hcomps).1 hroot
    · rename_i habs
      rw [if_neg habs] at hcomps
      split
      · rename_i hdot
        rw [if_pos hdot] at hcomps
        exact absurd (List.cons.inj hcomps).1 hhere
      · rfl
  rw [hseg, hcomps, hplain, List.filterMap_cons]
  cases Component.ofSegment? first <;> rfl

/-- A path that is its base and names has these names for components, as seen
from there. -/
theorem components_relativeTo? {p base : Path} {ns : List String} (hbase : base.components ≠ [])
    (h : p.components = base.components ++ ns.map .name) :
    ∃ q, p.relativeTo? base = some q ∧ q.components = ns.map .name := by
  have hwithin : p.isWithin base = true := by
    rw [isWithin, h, List.isPrefixOf_iff_prefix]
    exact List.prefix_append _ _
  obtain ⟨front, rest, hrest⟩ := List.exists_cons_of_ne_nil hbase
  rw [hrest, List.cons_append] at h
  -- What is left of the segments says the names.
  have hread : ∀ n ss, ss <:+ p.segments →
      (ss.filterMap Component.ofSegment?).drop n = ns.map .name →
      (⟨String.ofList (['/'].intercalate (dropSegments n ss))⟩ : Path).components =
        ns.map .name := by
    intro n ss hss hdrop
    rw [components_ofSegments ?_ fun s rest => isSome_of_dropSegments, filterMap_dropSegments,
      hdrop]
    intro s hs
    exact (of_mem_splitOn (hss.subset ((dropSegments_suffix n ss).subset hs))).1
  have htail : front = .root ∨ front = .here →
      (p.segments.tail.filterMap Component.ofSegment?).drop rest.length = ns.map .name := by
    intro hfront
    rw [filterMap_tail_segments h hfront, List.drop_left]
  have hall : front ≠ .root → front ≠ .here →
      (p.segments.filterMap Component.ofSegment?).drop (rest.length + 1) = ns.map .name := by
    intro hroot hhere
    rw [filterMap_segments h hroot hhere, List.drop_succ_cons, List.drop_left]
  have hmore : p.segments.tail <:+ p.segments := List.tail_suffix _
  rw [relativeTo?, if_pos hwithin, hrest]
  refine ⟨_, rfl, ?_⟩
  cases front with
  | root => exact hread _ _ hmore (htail (.inl rfl))
  | here => exact hread _ _ hmore (htail (.inr rfl))
  | up => exact hread _ _ (List.suffix_refl _) (hall (by simp) (by simp))
  | name n => exact hread _ _ (List.suffix_refl _) (hall (by simp) (by simp))

/-! ## Joined paths -/

/-- The text of a path without a slash at its end. -/
def stem (p : Path) : List Char :=
  if p.text.toList.getLast? = some '/' then p.text.toList.dropLast else p.text.toList

theorem toList_join {p q : Path} (hp : p.text ≠ "") (hq : q.isAbsolute = false) :
    (p.join q).text.toList = p.stem ++ '/' :: q.text.toList := by
  have hp' : p.text.toList ≠ [] := by simpa using hp
  unfold join stem
  rw [hq, if_neg (by simp)]
  by_cases hslash : p.text.toList.getLast? = some '/'
  · rw [if_pos (.inr hslash), if_pos hslash]
    obtain ⟨u, hu⟩ := List.getLast?_eq_some_iff.1 hslash
    simp [hu]
  · rw [if_neg (by simp [hp', hslash]), if_neg hslash]
    simp

theorem prefix_join (p : Path) {q : Path} (hq : q.isAbsolute = false) :
    p.text.toList <+: (p.join q).text.toList := by
  unfold join
  rw [hq, if_neg (by simp)]
  split <;> simp

theorem segments_join {p q : Path} (hp : p.text ≠ "") (hq : q.isAbsolute = false) :
    (p.join q).segments = p.stem.splitOn '/' ++ q.segments := by
  rw [segments, toList_join hp hq, List.splitOn_append_cons_self, segments]

theorem isAbsolute_join {p q : Path} (hp : p.text ≠ "") (hq : q.isAbsolute = false) :
    (p.join q).isAbsolute = p.isAbsolute := by
  have hp' : p.text.toList ≠ [] := by simpa using hp
  rw [isAbsolute, toList_join hp hq, isAbsolute, stem]
  split
  · rename_i hslash
    obtain ⟨u, hu⟩ := List.getLast?_eq_some_iff.1 hslash
    rw [hu, List.dropLast_concat]
    cases u <;> simp
  · obtain ⟨c, t, ht⟩ := List.exists_cons_of_ne_nil hp'
    simp [ht]

theorem text_join_ne {p q : Path} (hp : p.text ≠ "") (hq : q.isAbsolute = false) :
    (p.join q).text ≠ "" := by
  intro h
  have htext := toList_join hp hq
  rw [h] at htext
  simp at htext

/-- A slash at the end is an empty segment more. -/
theorem segments_eq_stem (p : Path) :
    p.segments = p.stem.splitOn '/' ∨ p.segments = p.stem.splitOn '/' ++ [[]] := by
  unfold segments stem
  split
  · rename_i hslash
    obtain ⟨u, hu⟩ := List.getLast?_eq_some_iff.1 hslash
    right
    rw [hu, List.splitOn_append_cons_self]
    simp
  · exact .inl rfl

theorem isAbsolute_name {n : String} (hn : IsName n) : (⟨n⟩ : Path).isAbsolute = false := by
  rw [isAbsolute, beq_eq_false_iff_ne]
  exact fun hhead => hn.noSlash (List.mem_of_head? hhead)

theorem segments_name {n : String} (hn : IsName n) : (⟨n⟩ : Path).segments = [n.toList] :=
  List.splitOn_eq_singleton hn.noSlash

/-- A path that leads down from where it starts. -/
structure Descends (p : Path) : Prop where
  relative : p.isAbsolute = false
  down : .up ∉ p.components

instance (p : Path) : Decidable p.Descends :=
  decidable_of_iff (p.isAbsolute = false ∧ .up ∉ p.components)
    ⟨fun h => ⟨h.1, h.2⟩, fun h => ⟨h.relative, h.down⟩⟩

/-- The segments of a path that leads down say names. -/
theorem Descends.exists_names {p : Path} (h : p.Descends) :
    ∃ ns : List String, p.segments.filterMap Component.ofSegment? = ns.map .name := by
  have hnames : ∀ c ∈ p.segments.filterMap Component.ofSegment?, ∃ n, c = .name n := by
    intro c hc
    obtain ⟨s, hs, hsc⟩ := List.mem_filterMap.1 hc
    unfold Component.ofSegment? at hsc
    split at hsc
    · cases hsc
    · split at hsc
      · rename_i hup
        refine absurd ?_ h.down
        cases hseg : p.segments with
        | nil => exact absurd hseg (List.splitOn_ne_nil _ _)
        | cons first more =>
          rw [components_eq hseg, front?, h.relative, if_neg (by simp)]
          rw [hseg, hup] at hs
          rcases List.mem_cons.1 hs with rfl | hs
          · simp [Component.ofSegment?]
          · refine List.mem_append_right _ (List.mem_filterMap.2 ⟨_, hs, ?_⟩)
            simp [Component.ofSegment?]
      · exact ⟨_, (Option.some.inj hsc).symm⟩
  generalize p.segments.filterMap Component.ofSegment? = cs at hnames
  induction cs with
  | nil => exact ⟨[], rfl⟩
  | cons c cs ih =>
    obtain ⟨n, rfl⟩ := hnames c List.mem_cons_self
    obtain ⟨ns, rfl⟩ := ih fun d hd => hnames d (List.mem_cons_of_mem _ hd)
    exact ⟨n :: ns, rfl⟩

end Path

end Relocate
