import Relocate.Path.Normal

/-!
# Names and walks

A path leads to a list of names. A name is what a single segment of a path
can say (`IsName`), so a list of names can be written down as a path and read
back, component by component.

* `components_ofNames`: the path of a list of names has these components.
* `components_join_name`: a name joined to a path is its last component.
* `name_of_names?`: paths lead to names, and spell them.
* `walk?_append`: a longer walk goes on from where the shorter one ended.
* `exists_of_walkFrom?`: a walk keeps some of the place where it starts, and
  its components say the rest.
-/
namespace Relocate

/-- One step down in a path. -/
structure IsName (s : String) : Prop where
  noSlash : '/' ∉ s.toList
  ne_nil : s.toList ≠ []
  ne_dot : s.toList ≠ ['.']
  ne_dots : s.toList ≠ ['.', '.']

instance (s : String) : Decidable (IsName s) :=
  decidable_of_iff ('/' ∉ s.toList ∧ s.toList ≠ [] ∧ s.toList ≠ ['.'] ∧ s.toList ≠ ['.', '.'])
    ⟨fun ⟨hslash, hnil, hdot, hdots⟩ => ⟨hslash, hnil, hdot, hdots⟩,
      fun h => ⟨h.noSlash, h.ne_nil, h.ne_dot, h.ne_dots⟩⟩

theorem IsName.reads {s : String} (h : IsName s) :
    Component.ofSegment? s.toList = some (.name s) := by
  simp [Component.ofSegment?, h.ne_nil, h.ne_dot, h.ne_dots]

/-! ## Components -/

theorem IsName.of_segment {s : List Char} {n : String} (hs : '/' ∉ s)
    (h : Component.ofSegment? s = some (.name n)) : IsName n ∧ n.toList = s := by
  unfold Component.ofSegment? at h
  split at h
  · cases h
  · rename_i h1
    split at h
    · cases h
    · rename_i h2
      cases h
      rw [not_or] at h1
      have hlist : (String.ofList s).toList = s := by simp
      exact ⟨⟨by rwa [hlist], by rw [hlist]; exact h1.1, by rw [hlist]; exact h1.2,
        by rwa [hlist]⟩, hlist⟩

theorem of_mem_splitOn {c : Char} {t s : List Char} (h : s ∈ t.splitOn c) : c ∉ s ∧ s ⊆ t := by
  induction t generalizing s with
  | nil => simp at h; simp [h]
  | cons d t ih =>
    rw [List.splitOn_cons_eq_if_modifyHead] at h
    split at h
    · rcases List.mem_cons.1 h with rfl | h
      · simp
      · exact ⟨(ih h).1, List.subset_cons_of_subset d (ih h).2⟩
    · rename_i hd
      cases ht : t.splitOn c with
      | nil => exact absurd ht (List.splitOn_ne_nil c t)
      | cons u us =>
        rw [ht, List.modifyHead_cons] at h
        rcases List.mem_cons.1 h with rfl | h
        · obtain ⟨hu, hsub⟩ := ih (show u ∈ t.splitOn c by rw [ht]; exact List.mem_cons_self)
          simp only [List.mem_cons, not_or]
          exact ⟨⟨fun e => hd (by simp [e]), hu⟩, List.cons_subset_cons d hsub⟩
        · obtain ⟨hs, hsub⟩ := ih (show s ∈ t.splitOn c by rw [ht]; exact List.mem_cons_of_mem u h)
          exact ⟨hs, List.subset_cons_of_subset d hsub⟩

/-- What the segments of a text say, they spell. -/
theorem name_of_mem_segments {t : List Char} {n : String}
    (h : .name n ∈ (t.splitOn '/').filterMap Component.ofSegment?) :
    IsName n ∧ n.toList ⊆ t := by
  obtain ⟨s, hs, hn⟩ := List.mem_filterMap.1 h
  obtain ⟨hslash, hsub⟩ := of_mem_splitOn hs
  obtain ⟨hname, rfl⟩ := IsName.of_segment hslash hn
  exact ⟨hname, hsub⟩

/-- What the first segment of a path stands for. -/
def Path.front? (p : Path) (first : List Char) : Option Component :=
  if p.isAbsolute then some .root
  else if first = ['.'] then some .here
  else Component.ofSegment? first

theorem Path.components_eq {p : Path} {first : List Char} {more : List (List Char)}
    (h : p.segments = first :: more) :
    p.components = (p.front? first).toList ++ more.filterMap Component.ofSegment? := by
  simp only [components, h]
  rfl

theorem name_of_mem_components {p : Path} {n : String} (h : .name n ∈ p.components) :
    IsName n ∧ n.toList ⊆ p.text.toList := by
  refine name_of_mem_segments ?_
  cases hs : p.segments with
  | nil => exact absurd hs (List.splitOn_ne_nil _ _)
  | cons first more =>
    change _ ∈ p.segments.filterMap Component.ofSegment?
    rw [Path.components_eq hs, List.mem_append] at h
    rw [hs]
    rcases h with h | h
    · rw [Option.mem_toList] at h
      unfold Path.front? at h
      split at h
      · cases h
      · split at h
        · cases h
        · exact List.mem_filterMap.2 ⟨first, List.mem_cons_self, h⟩
    · obtain ⟨s, hmem, hsn⟩ := List.mem_filterMap.1 h
      exact List.mem_filterMap.2 ⟨s, List.mem_cons_of_mem first hmem, hsn⟩

/-- A component that its own text says, as one segment. -/
structure Component.Spelled (c : Component) : Prop where
  noSlash : '/' ∉ c.text.toList
  reads : ofSegment? c.text.toList = some c

theorem IsName.spelled {n : String} (h : IsName n) : (Component.name n).Spelled :=
  ⟨h.noSlash, h.reads⟩

theorem filterMap_spelled {cs : List Component} (h : ∀ c ∈ cs, c.Spelled) :
    (cs.map fun c => c.text.toList).filterMap Component.ofSegment? = cs := by
  induction cs with
  | nil => rfl
  | cons c cs ih =>
    rw [List.map_cons, List.filterMap_cons_some (h c List.mem_cons_self).reads,
      ih fun d hd => h d (List.mem_cons_of_mem c hd)]

theorem head?_intercalate {n : String} {ns : List String} (h : n.toList ≠ []) :
    ("/".intercalate (n :: ns)).toList.head? = n.toList.head? := by
  cases ns with
  | nil => simp
  | cons m ns =>
    cases hn : n.toList with
    | nil => exact absurd hn h
    | cons c cs => simp [hn]

/-- The path of a list of names says just these names. -/
theorem Path.components_ofNames {ns : List String} (h : ∀ n ∈ ns, IsName n) :
    (ofNames ns).components = ns.map .name := by
  cases ns with
  | nil => rfl
  | cons n ns =>
    have hn := h n List.mem_cons_self
    have hseg : (ofNames (n :: ns)).segments = (n :: ns).map String.toList := by
      simp only [ofNames, segments, String.toList_intercalate]
      refine List.splitOn_intercalate '/' ?_ (by simp)
      intro s hs
      obtain ⟨m, hm, rfl⟩ := List.mem_map.1 hs
      exact (h m hm).noSlash
    have habs : (ofNames (n :: ns)).isAbsolute = false := by
      rw [isAbsolute, ofNames, head?_intercalate hn.ne_nil, beq_eq_false_iff_ne]
      exact fun hh => hn.noSlash (List.mem_of_head? hh)
    have hmore : ∀ c ∈ ns.map Component.name, c.Spelled := by
      intro c hc
      obtain ⟨m, hm, rfl⟩ := List.mem_map.1 hc
      exact (h m (List.mem_cons_of_mem n hm)).spelled
    have htail := filterMap_spelled hmore
    rw [List.map_map] at htail
    rw [components_eq hseg, front?, habs, if_neg (by simp), if_neg hn.ne_dot, hn.reads]
    exact congrArg (Component.name n :: ·) htail

/-- What stands behind a slash of a path says the same as it does alone, a
leading dot or slash aside. -/
theorem Path.components_slash {p : Path} {u v : List Char} (hp : p.text.toList = u ++ '/' :: v) :
    p.components = (if u = [] then [.root] else (⟨String.ofList u⟩ : Path).components) ++
      (v.splitOn '/').filterMap Component.ofSegment? := by
  have hseg : p.segments = u.splitOn '/' ++ v.splitOn '/' := by
    rw [segments, hp, List.splitOn_append_cons_self]
  cases hu : u with
  | nil =>
    rw [hu] at hseg hp
    rw [components_eq hseg, front?, if_pos (by simp [isAbsolute, hp]), if_pos rfl]
    rfl
  | cons c u' =>
    have habs : p.isAbsolute = (⟨String.ofList u⟩ : Path).isAbsolute := by
      simp [isAbsolute, hp, hu]
    cases hs : u.splitOn '/' with
    | nil => exact absurd hs (List.splitOn_ne_nil _ _)
    | cons first more =>
      have hseg' : (⟨String.ofList u⟩ : Path).segments = first :: more := by
        simpa [segments] using hs
      rw [hs, List.cons_append] at hseg
      rw [if_neg (by simp), ← hu, components_eq hseg, components_eq hseg', front?, front?, habs,
        List.filterMap_append, List.append_assoc]

/-- A path put behind another one, which is not empty, goes on segment by
segment. -/
theorem Path.components_join {p q : Path} (hq : q.isAbsolute = false) (hp : p.text.toList ≠ []) :
    (p.join q).components = p.components ++ q.segments.filterMap Component.ofSegment? := by
  unfold join
  rw [hq, if_neg (by simp)]
  by_cases hslash : p.text.toList.getLast? = some '/'
  · rw [if_pos (.inr hslash)]
    obtain ⟨u, hu⟩ := List.getLast?_eq_some_iff.1 hslash
    rw [components_slash (u := u) (v := q.text.toList) (by simp [hu]),
      components_slash (p := p) (v := []) hu]
    simp [Component.ofSegment?, segments]
  · rw [if_neg (by simp [hp, hslash]),
      components_slash (u := p.text.toList) (v := q.text.toList) (by simp), if_neg hp]
    simp [segments]

theorem Path.mem_text_join {p q : Path} {x : Char} (h : x ∈ (p.join q).text.toList) :
    x ∈ p.text.toList ∨ x ∈ q.text.toList ∨ x = '/' := by
  unfold join at h
  split at h
  · exact .inr (.inl h)
  · split at h <;> simp only [String.toList_append, List.mem_append] at h
    · exact h.imp_right .inl
    · rcases h with (h | h) | h
      · exact .inl h
      · exact .inr (.inr (by simpa using h))
      · exact .inr (.inl h)

theorem Path.join_of_text_nil {p : Path} (hp : p.text.toList = []) (q : Path) : p.join q = q := by
  obtain rfl : p = ⟨""⟩ := by
    cases p
    simpa using hp
  unfold join
  split
  · rfl
  · rw [if_pos (.inl rfl), String.empty_append]

/-- A name put behind a path is its last component. -/
theorem Path.components_join_name (p : Path) {n : String} (hn : IsName n) :
    (p.join ⟨n⟩).components = p.components ++ [.name n] := by
  have habs : (⟨n⟩ : Path).isAbsolute = false := by
    rw [isAbsolute, beq_eq_false_iff_ne]
    exact fun hh => hn.noSlash (List.mem_of_head? hh)
  by_cases hp : p.text.toList = []
  · have hsingle := components_ofNames (show ∀ m ∈ [n], IsName m by simpa using hn)
    rw [ofNames, String.intercalate_singleton] at hsingle
    have hnil : p.components = [] := by
      simp [components, segments, isAbsolute, hp, Component.ofSegment?]
    rw [join_of_text_nil hp, hsingle, hnil]
    rfl
  · have hseg : (⟨n⟩ : Path).segments = [n.toList] := List.splitOn_eq_singleton hn.noSlash
    rw [components_join habs hp, hseg, List.filterMap_cons_some hn.reads, List.filterMap_nil]

/-! ## Walks -/

/-- The place that a walk ends at when it starts at `place`; names innermost
first. -/
def walkFrom? (place : List String) (cs : List Component) : Option (List String) :=
  cs.foldlM (fun names (c : Component) => c.enter? names) place

theorem walk?_eq (cs : List Component) : walk? cs = (walkFrom? [] cs).map List.reverse := rfl

theorem walkFrom?_cons (place : List String) (c : Component) (cs : List Component) :
    walkFrom? place (c :: cs) = (c.enter? place).bind (walkFrom? · cs) := by
  simp only [walkFrom?, List.foldlM_cons]
  rfl

theorem walkFrom?_append (place : List String) (cs ds : List Component) :
    walkFrom? place (cs ++ ds) = (walkFrom? place cs).bind (walkFrom? · ds) := by
  simp only [walkFrom?, List.foldlM_append]
  rfl

/-- A longer walk goes on from where the shorter one ended. -/
theorem walk?_append {cs ds : List Component} {names : List String} (h : walk? cs = some names) :
    walk? (cs ++ ds) = (walkFrom? names.reverse ds).map List.reverse := by
  obtain ⟨place, hplace, rfl⟩ := Option.map_eq_some_iff.1 h
  change walkFrom? [] cs = some place at hplace
  rw [walk?_eq, walkFrom?_append, hplace, List.reverse_reverse]
  rfl

theorem walkFrom?_names (place ns : List String) :
    walkFrom? place (ns.map .name) = some (ns.reverse ++ place) := by
  induction ns generalizing place with
  | nil => rfl
  | cons n ns ih =>
    rw [List.map_cons, walkFrom?_cons]
    simp [Component.enter?, ih]

theorem walkFrom?_ups (climbed place : List String) :
    walkFrom? (climbed ++ place) (List.replicate climbed.length .up) = some place := by
  induction climbed with
  | nil => rfl
  | cons n climbed ih =>
    rw [List.length_cons, List.replicate_succ, walkFrom?_cons]
    simpa [Component.enter?] using ih

/-- A walk drops names of the place where it starts and adds names that its
components say. -/
theorem exists_of_walkFrom? {place names : List String} {cs : List Component}
    (h : walkFrom? place cs = some names) :
    ∃ fresh kept, names = fresh ++ kept ∧ kept <:+ place ∧ ∀ n ∈ fresh, .name n ∈ cs := by
  induction cs generalizing place with
  | nil =>
    cases h
    exact ⟨[], names, rfl, List.suffix_refl names, by simp⟩
  | cons c cs ih =>
    rw [walkFrom?_cons, Option.bind_eq_some_iff] at h
    obtain ⟨next, hc, hcs⟩ := h
    obtain ⟨fresh, kept, rfl, hkept, hfresh⟩ := ih hcs
    have hmem : ∀ n ∈ fresh, Component.name n ∈ c :: cs := fun n hn =>
      List.mem_cons_of_mem c (hfresh n hn)
    cases c with
    | name s =>
      cases hc
      rcases List.suffix_cons_iff.1 hkept with rfl | hkept
      · refine ⟨fresh ++ [s], place, by simp, List.suffix_refl place, ?_⟩
        intro n hn
        rcases List.mem_append.1 hn with hn | hn
        · exact hmem n hn
        · rw [List.mem_singleton.1 hn]
          exact List.mem_cons_self
      · exact ⟨fresh, kept, rfl, hkept, hmem⟩
    | here =>
      cases hc
      exact ⟨fresh, kept, rfl, hkept, hmem⟩
    | up =>
      cases place with
      | nil => cases hc
      | cons m place =>
        cases hc
        exact ⟨fresh, kept, rfl, hkept.trans (List.suffix_cons m next), hmem⟩
    | root => cases hc

/-- Paths lead to names, and spell them. -/
theorem name_of_names? {p : Path} {names : List String} (h : p.names? = some names) :
    ∀ n ∈ names, IsName n ∧ n.toList ⊆ p.text.toList := by
  intro n hn
  obtain ⟨place, hplace, rfl⟩ := Option.map_eq_some_iff.1 h
  obtain ⟨fresh, kept, rfl, hkept, hfresh⟩ := exists_of_walkFrom? hplace
  obtain rfl : kept = [] := List.suffix_nil.1 hkept
  rw [List.append_nil, List.mem_reverse] at hn
  exact name_of_mem_components (hfresh n hn)

theorem isName_of_names? {p : Path} {names : List String} (h : p.names? = some names) :
    ∀ n ∈ names, IsName n := fun n hn => (name_of_names? h n hn).1

/-- A walk on over the segments of a text keeps some of the place, and spells
the rest. -/
theorem walk?_segments {cs : List Component} {t : List Char} {base place : List String}
    (hcs : walk? cs = some base)
    (h : walk? (cs ++ (t.splitOn '/').filterMap Component.ofSegment?) = some place) :
    ∃ kept fresh, place = kept ++ fresh ∧ kept <+: base ∧ ∀ n ∈ fresh, n.toList ⊆ t := by
  rw [walk?_append hcs] at h
  obtain ⟨names, hnames, rfl⟩ := Option.map_eq_some_iff.1 h
  obtain ⟨fresh, kept, rfl, hkept, hfresh⟩ := exists_of_walkFrom? hnames
  refine ⟨kept.reverse, fresh.reverse, List.reverse_append, ?_, ?_⟩
  · rw [← List.reverse_suffix, List.reverse_reverse]
    exact hkept
  · intro n hn
    exact (name_of_mem_segments (hfresh n (List.mem_reverse.1 hn))).2

/-- A path put behind another one keeps some of the place that one leads to,
and spells the rest. -/
theorem names?_join {p q : Path} {target : List String} (h : (p.join q).names? = some target) :
    ∃ kept fresh, target = kept ++ fresh ∧
      (kept = [] ∨ ∃ base, p.names? = some base ∧ kept <+: base) ∧
      ∀ n ∈ fresh, n.toList ⊆ q.text.toList := by
  have halone : q.names? = some target → ∃ kept fresh, target = kept ++ fresh ∧
      (kept = [] ∨ ∃ base, p.names? = some base ∧ kept <+: base) ∧
      ∀ n ∈ fresh, n.toList ⊆ q.text.toList := by
    intro hq
    obtain ⟨names, hnames, rfl⟩ := Option.map_eq_some_iff.1 hq
    obtain ⟨fresh, kept, rfl, hkept, hfresh⟩ := exists_of_walkFrom? hnames
    obtain rfl : kept = [] := List.suffix_nil.1 hkept
    refine ⟨[], fresh.reverse, by simp, .inl rfl, ?_⟩
    intro n hn
    exact (name_of_mem_components (hfresh n (List.mem_reverse.1 hn))).2
  cases habs : q.isAbsolute with
  | true =>
    rw [Path.join, habs, if_pos rfl] at h
    exact halone h
  | false =>
    by_cases hnil : p.text.toList = []
    · rw [Path.join_of_text_nil hnil] at h
      exact halone h
    · rw [Path.names?, Path.components_join habs hnil] at h
      cases hp : walk? p.components with
      | none =>
        rw [walk?_eq, Option.map_eq_none_iff] at hp
        rw [walk?_eq, walkFrom?_append, hp] at h
        cases h
      | some base =>
        obtain ⟨kept, fresh, rfl, hkept, hfresh⟩ := walk?_segments hp h
        exact ⟨kept, fresh, rfl, .inr ⟨base, hp, hkept⟩, hfresh⟩

end Relocate
