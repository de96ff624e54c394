import Relocate.Proofs.Path.Names

/-!
# Paths that stay inside

A walk over components fails at a root, or at the first `..` that finds no name
left to drop. So whether a path leads anywhere can be told by counting: at no
place on the way may there have been more `..` than names
(`walkFrom?_eq_none_iff`). Where it leads is written with names alone, and such
a path leads to itself (`normalize?_of_normalize?`).

A walk goes on from where it has led so far (`walk?_goes_on`), so where a
specifier leads depends on the place of its folder and not on the folder's
spelling (`specifierNames?_congr`). It makes no difference whether its segments
are put behind the folder one after the other (`normalize?_push`).
-/
namespace Relocate

/-! ## Names alone -/

def Component.isName : Component → Bool
  | name _ => true
  | root | here | up => false

/-- Whether names are all that a path is spelled with. -/
def Path.isPlain (p : Path) : Bool := p.components.all Component.isName

theorem eq_map_name {cs : List Component} (h : cs.all Component.isName) :
    ∃ ns : List String, cs = ns.map .name := by
  induction cs with
  | nil => exact ⟨[], rfl⟩
  | cons c cs ih =>
    rw [List.all_cons, Bool.and_eq_true] at h
    obtain ⟨ns, rfl⟩ := ih h.2
    cases c with
    | name n => exact ⟨n :: ns, rfl⟩
    | root => cases h.1
    | here => cases h.1
    | up => cases h.1

/-! ## Walks that fail -/

/-- On the way there are more steps up than names, `n` names at the start
included. -/
def ClimbsOut (n : Nat) (cs : List Component) : Prop :=
  ∃ front, front <+: cs ∧ n + front.countP Component.isName < front.count .up

theorem not_climbsOut_nil (n : Nat) : ¬ ClimbsOut n [] := by
  rintro ⟨front, hfront, hcount⟩
  rw [List.prefix_nil.1 hfront] at hcount
  simp at hcount

theorem climbsOut_cons {n : Nat} {c : Component} {cs : List Component} :
    ClimbsOut n (c :: cs) ↔ ∃ front, front <+: cs ∧
      n + (c :: front).countP Component.isName < (c :: front).count .up := by
  constructor
  · rintro ⟨front, hfront, hcount⟩
    rcases List.prefix_cons_iff.1 hfront with rfl | ⟨more, rfl, hmore⟩
    · simp at hcount
    · exact ⟨more, hmore, hcount⟩
  · rintro ⟨front, hfront, hcount⟩
    exact ⟨c :: front, List.cons_prefix_cons.2 ⟨rfl, hfront⟩, hcount⟩

theorem climbsOut_name {n : Nat} {s : String} {cs : List Component} :
    ClimbsOut n (.name s :: cs) ↔ ClimbsOut (n + 1) cs := by
  rw [climbsOut_cons]
  refine exists_congr fun front => and_congr_right fun _ => ?_
  rw [List.countP_cons_of_pos rfl, List.count_cons_of_ne (by simp)]
  omega

theorem climbsOut_here {n : Nat} {cs : List Component} :
    ClimbsOut n (.here :: cs) ↔ ClimbsOut n cs := by
  rw [climbsOut_cons]
  refine exists_congr fun front => and_congr_right fun _ => ?_
  rw [List.countP_cons_of_neg (by decide), List.count_cons_of_ne (by decide)]

theorem climbsOut_up {n : Nat} {cs : List Component} :
    ClimbsOut (n + 1) (.up :: cs) ↔ ClimbsOut n cs := by
  rw [climbsOut_cons]
  refine exists_congr fun front => and_congr_right fun _ => ?_
  rw [List.countP_cons_of_neg (by decide), List.count_cons_self]
  omega

theorem climbsOut_up_zero (cs : List Component) : ClimbsOut 0 (.up :: cs) :=
  ⟨[.up], List.cons_prefix_cons.2 ⟨rfl, List.nil_prefix⟩, by decide⟩

/-- A walk fails at a root, and where it climbs out. -/
theorem walkFrom?_eq_none_iff {place : List String} {cs : List Component} :
    walkFrom? place cs = none ↔ .root ∈ cs ∨ ClimbsOut place.length cs := by
  induction cs generalizing place with
  | nil =>
    have hsome : walkFrom? place [] = some place := rfl
    simp [hsome, not_climbsOut_nil]
  | cons c cs ih =>
    rw [walkFrom?_cons]
    cases c with
    | name n => simp [Component.enter?, ih, climbsOut_name]
    | here => simp [Component.enter?, ih, climbsOut_here]
    | up =>
      cases place with
      | nil => simp [Component.enter?, climbsOut_up_zero]
      | cons m place => simp [Component.enter?, ih, climbsOut_up]
    | root => simp [Component.enter?]

/-- A longer walk goes on from where the shorter one has led. -/
theorem walk?_goes_on (cs ds : List Component) : walk? (cs ++ ds) = (walk? cs).bind fun names =>
    (walkFrom? names.reverse ds).map List.reverse := by
  cases hwalk : walk? cs with
  | some names => exact walk?_append hwalk
  | none =>
    rw [walk?_eq, Option.map_eq_none_iff] at hwalk
    rw [walk?_eq, walkFrom?_append, hwalk]
    rfl

namespace Path

variable {p q : Path} {names : List String}

theorem root_mem_components_iff : .root ∈ p.components ↔ p.isAbsolute := by
  have hsegment : ∀ s, Component.ofSegment? s ≠ some .root := by
    intro s
    unfold Component.ofSegment?
    split
    · simp
    · split <;> simp
  obtain ⟨first, more, hsegments⟩ : ∃ first more, p.segments = first :: more :=
    List.exists_cons_of_ne_nil (List.splitOn_ne_nil _ _)
  have hmore : .root ∉ more.filterMap Component.ofSegment? := by
    intro hmem
    obtain ⟨s, -, hs⟩ := List.mem_filterMap.1 hmem
    exact hsegment s hs
  rw [components_eq hsegments, List.mem_append, Option.mem_toList, front?]
  by_cases habs : p.isAbsolute
  · simp [habs]
  · by_cases hdot : first = ['.']
    · simp [habs, hdot, hmore]
    · simp [habs, hdot, hmore, hsegment]

theorem normalize?_eq_none_iff :
    p.normalize? = none ↔ p.isAbsolute ∨ ClimbsOut 0 p.components := by
  rw [normalize?, Option.map_eq_none_iff, names?, walk?_eq, Option.map_eq_none_iff,
    walkFrom?_eq_none_iff, root_mem_components_iff]
  rfl

/-! ## Normal paths -/

theorem components_of_isPlain (h : p.isPlain) (hnames : p.names? = some names) :
    p.components = names.map .name := by
  obtain ⟨ns, hns⟩ := eq_map_name h
  rw [names?, hns, walk?_eq, walkFrom?_names] at hnames
  simp only [List.append_nil, Option.map_some, List.reverse_reverse, Option.some.injEq] at hnames
  rw [hns, hnames]

theorem names?_of_normalize? (h : p.normalize? = some q) : p.names? = q.names? := by
  obtain ⟨names, hnames, rfl⟩ := Option.map_eq_some_iff.1 h
  rw [hnames, names?, components_ofNames (isName_of_names? hnames), walk?_eq, walkFrom?_names]
  simp

theorem isPlain_of_normalize? (h : p.normalize? = some q) : q.isPlain := by
  obtain ⟨names, hnames, rfl⟩ := Option.map_eq_some_iff.1 h
  rw [isPlain, components_ofNames (isName_of_names? hnames), List.all_map, List.all_eq_true]
  intro n _
  rfl

/-- A normal path is normal already. -/
theorem normalize?_of_normalize? (h : p.normalize? = some q) : q.normalize? = some q := by
  rw [← h, normalize?, normalize?, names?_of_normalize? h]

/-- Two paths have one normal form when they lead to one place, or nowhere. -/
theorem normalize?_eq_iff : p.normalize? = q.normalize? ↔ p.names? = q.names? := by
  constructor
  · intro h
    cases hp : p.normalize? with
    | some r => exact (names?_of_normalize? hp).trans (names?_of_normalize? (h ▸ hp)).symm
    | none =>
      have hq : q.normalize? = none := h ▸ hp
      rw [Option.map_eq_none_iff.1 hp, Option.map_eq_none_iff.1 hq]
  · intro h
    rw [normalize?, normalize?, h]

/-! ## What is put behind a path -/

theorem names?_join_eq (hp : p.text.toList ≠ []) {r : Path} (hr : r.isAbsolute = false) :
    (p.join r).names? = p.names?.bind fun names =>
      (walkFrom? names.reverse (r.segments.filterMap Component.ofSegment?)).map List.reverse := by
  rw [names?, components_join hr hp, walk?_goes_on]
  rfl

/-- Where a specifier leads depends on where its folder is, and not on how
that is spelled. -/
theorem specifierNames?_congr (h : p.names? = q.names?) (s : List Char) :
    p.specifierNames? s = q.specifierNames? s := by
  rw [specifierNames?, specifierNames?, walk?_goes_on, walk?_goes_on]
  exact congrArg (Option.bind · _) h

theorem joinSpecifier?_congr (h : p.names? = q.names?) (s : List Char) :
    p.joinSpecifier? s = q.joinSpecifier? s := by
  rw [joinSpecifier?, joinSpecifier?, specifierNames?_congr h]

/-- A segment put behind a path is one step further. Behind an empty path a
dot becomes a component, but one that stays where it is. -/
theorem walkFrom?_join_segment {segment : List Char} (hslash : '/' ∉ segment) :
    walkFrom? [] (p.join ⟨String.ofList segment⟩).components =
      walkFrom? [] (p.components ++ (Component.ofSegment? segment).toList) := by
  have habs : (⟨String.ofList segment⟩ : Path).isAbsolute = false := by
    rw [isAbsolute, beq_eq_false_iff_ne, String.toList_ofList]
    exact fun hh => hslash (List.mem_of_head? hh)
  have hsegments : (⟨String.ofList segment⟩ : Path).segments = [segment] := by
    rw [segments, String.toList_ofList]
    exact List.splitOn_eq_singleton hslash
  by_cases hp : p.text.toList = []
  · have hnil : p.components = [] := by
      simp [components, segments, isAbsolute, hp, Component.ofSegment?]
    rw [join_of_text_nil hp, hnil, components_eq hsegments, front?, habs, if_neg (by simp),
      List.filterMap_nil, List.append_nil, List.nil_append]
    by_cases hdot : segment = ['.']
    · rw [hdot]
      rfl
    · rw [if_neg hdot]
  · rw [components_join habs hp, hsegments]
    cases hsay : Component.ofSegment? segment <;> simp [hsay]

theorem walkFrom?_foldl_join {segments : List (List Char)} (h : ∀ s ∈ segments, '/' ∉ s) :
    walkFrom? [] (segments.foldl (fun p s => p.join ⟨String.ofList s⟩) p).components =
      walkFrom? [] (p.components ++ segments.filterMap Component.ofSegment?) := by
  induction segments generalizing p with
  | nil => simp
  | cons s segments ih =>
    have hsay : (s :: segments).filterMap Component.ofSegment? =
        (Component.ofSegment? s).toList ++ segments.filterMap Component.ofSegment? := by
      cases hs : Component.ofSegment? s <;> simp [hs]
    rw [List.foldl_cons, ih fun t ht => h t (List.mem_cons_of_mem s ht), walkFrom?_append,
      walkFrom?_join_segment (h s List.mem_cons_self), ← walkFrom?_append, hsay, List.append_assoc]

/-- Segment by segment, a specifier leads where it leads as a whole. -/
theorem normalize?_push (folder : Path) (s : List Char) :
    (folder.push s).normalize? = folder.joinSpecifier? s := by
  have hslash : ∀ t ∈ (s.splitOn '/').filter (· ≠ []), '/' ∉ t := fun t ht =>
    (of_mem_splitOn (List.mem_filter.1 ht).1).1
  have hsay : ((s.splitOn '/').filter (· ≠ [])).filterMap Component.ofSegment? =
      (s.splitOn '/').filterMap Component.ofSegment? := by
    rw [List.filterMap_filter]
    congr 1
    funext t
    by_cases ht : t = []
    · simp [ht, Component.ofSegment?]
    · simp [ht]
  rw [normalize?, joinSpecifier?, names?, specifierNames?, walk?_eq, walk?_eq, push,
    walkFrom?_foldl_join hslash, hsay]

end Path

end Relocate
