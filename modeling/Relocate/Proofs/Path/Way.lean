import Relocate.Canonical
import Relocate.Proofs.Path.Names
import Relocate.Proofs.Text.Split

/-!
# Ways between places

The relative text of a module spells the way from a folder to the module's
home: up to where the two part, then down.

* `exists_difference_eq`: the way goes up and then down, and no step up could
  be saved.
* `filterMap_relativeText`: read segment by segment, the text is the way again,
  so it leads from the base to the target (`specifierNames?_difference`).
* `afterLast_difference_above`, `afterLast_difference_aside`: what it ends in.
* `canonical?_leads_home`: so the text, seen from the folder, leads home, with
  as many `..` as there are names to leave; there is no text only where the
  folder or the home lies outside the project.
-/
namespace Relocate

/-- `climbed` is what has to be left of `base`, and `descended` what has to
be entered, to come from `base` to `target`. -/
structure Parts (base target climbed descended : List String) : Prop where
  shared : ∃ shared, base = shared ++ climbed ∧ target = shared ++ descended
  parted : ∀ n, climbed.head? = some n → descended.head? ≠ some n

/-- The components of a way up and then down. -/
def upDown (climbed descended : List String) : List Component :=
  List.replicate climbed.length .up ++ descended.map .name

theorem exists_difference_eq (base target : List String) :
    ∃ climbed descended, Parts base target climbed descended ∧
      difference base target = upDown climbed descended := by
  fun_induction difference base target with
  | case1 target => exact ⟨[], target, ⟨⟨[], rfl, rfl⟩, by simp⟩, rfl⟩
  | case2 b base =>
    refine ⟨b :: base, [], ⟨⟨[], rfl, rfl⟩, by simp⟩, ?_⟩
    simp [upDown, List.map_const', List.replicate_succ]
  | case3 base t target ih =>
    obtain ⟨climbed, descended, ⟨⟨shared, hb, ht⟩, hparted⟩, hd⟩ := ih
    exact ⟨climbed, descended, ⟨⟨t :: shared, by rw [hb]; rfl, by rw [ht]; rfl⟩, hparted⟩, hd⟩
  | case4 b base t target hne =>
    refine ⟨b :: base, t :: target, ⟨⟨[], rfl, rfl⟩, ?_⟩, ?_⟩
    · intro n hn
      obtain rfl : b = n := by simpa using hn
      simpa using Ne.symm hne
    · simp [upDown, List.map_const', List.replicate_succ]

namespace Parts

variable {base target climbed descended : List String}

theorem symm (h : Parts base target climbed descended) : Parts target base descended climbed := by
  obtain ⟨⟨shared, hb, ht⟩, hparted⟩ := h
  exact ⟨⟨shared, ht, hb⟩, fun n hd hc => hparted n hc hd⟩

theorem isName (h : Parts base target climbed descended) (hn : ∀ n ∈ target, IsName n) :
    ∀ n ∈ descended, IsName n := by
  obtain ⟨⟨shared, -, rfl⟩, -⟩ := h
  intro n hmem
  exact hn n (List.mem_append_right shared hmem)

theorem parted_names (h : Parts base target climbed descended) (c : Component)
    (hc : (climbed.map Component.name).head? = some c) :
    (descended.map Component.name).head? ≠ some c := by
  rw [List.head?_map, Option.map_eq_some_iff] at hc
  obtain ⟨n, hn, rfl⟩ := hc
  rw [List.head?_map]
  intro hd
  obtain ⟨m, hm, hmn⟩ := Option.map_eq_some_iff.1 hd
  cases hmn
  exact h.parted n hn hm

theorem descended_eq_nil_iff (h : Parts base target climbed descended) :
    descended = [] ↔ target <+: base := by
  obtain ⟨⟨shared, rfl, rfl⟩, hparted⟩ := h
  rw [List.prefix_append_right_inj]
  constructor
  · rintro rfl
    exact List.nil_prefix
  · rintro ⟨more, rfl⟩
    cases descended with
    | nil => rfl
    | cons n descended => exact absurd rfl (hparted n rfl)

end Parts

/-- A place that both start with has no part in the way. -/
theorem difference_append (shared base target : List String) :
    difference (shared ++ base) (shared ++ target) = difference base target := by
  induction shared with
  | nil => rfl
  | cons n shared ih => rw [List.cons_append, List.cons_append, difference, if_pos rfl, ih]

theorem of_mem_difference {base target : List String} {c : Component}
    (h : c ∈ difference base target) : c = .up ∨ ∃ n ∈ target, c = .name n := by
  obtain ⟨climbed, descended, ⟨⟨shared, -, rfl⟩, -⟩, hd⟩ := exists_difference_eq base target
  rw [hd, upDown, List.mem_append] at h
  rcases h with h | h
  · exact .inl (List.eq_of_mem_replicate h)
  · obtain ⟨n, hn, rfl⟩ := List.mem_map.1 h
    exact .inr ⟨n, List.mem_append_right shared hn, rfl⟩

theorem walkFrom?_upDown {base target climbed descended : List String}
    (h : Parts base target climbed descended) :
    walkFrom? base.reverse (upDown climbed descended) = some target.reverse := by
  obtain ⟨⟨shared, rfl, rfl⟩, -⟩ := h
  have hups := walkFrom?_ups climbed.reverse shared.reverse
  rw [List.length_reverse] at hups
  rw [upDown, walkFrom?_append, List.reverse_append, hups, Option.bind_some, walkFrom?_names,
    List.reverse_append]

/-! ## The text of a way -/

theorem spelled_upDown (climbed : List String) {descended : List String}
    (h : ∀ n ∈ descended, IsName n) : ∀ c ∈ upDown climbed descended, c.Spelled := by
  intro c hc
  rcases List.mem_append.1 hc with hc | hc
  · rw [List.eq_of_mem_replicate hc]
    exact ⟨by decide, rfl⟩
  · obtain ⟨n, hn, rfl⟩ := List.mem_map.1 hc
    exact (h n hn).spelled

/-- A way as text, one segment for each component. -/
def wayText (cs : List Component) : String := "/".intercalate (cs.map Component.text)

/-- A way as a relative path: `./` in front unless two dots are there. -/
def relativeText (cs : List Component) : String :=
  if ['.', '.'].isPrefixOf (wayText cs).toList then wayText cs else "./" ++ wayText cs

theorem segments_wayText {cs : List Component} (hcs : cs ≠ []) (h : ∀ c ∈ cs, c.Spelled) :
    (wayText cs).toList.splitOn '/' = cs.map fun c => c.text.toList := by
  have hlist : (wayText cs).toList = ['/'].intercalate (cs.map fun c => c.text.toList) := by
    simp [wayText, Function.comp_def]
  rw [hlist]
  refine List.splitOn_intercalate '/' ?_ (by simpa using hcs)
  intro s hs
  obtain ⟨c, hc, rfl⟩ := List.mem_map.1 hs
  exact (h c hc).noSlash

/-- The segments of a way up and then down: two dots for each step up, and no
two dots after these. -/
theorem segments_upDown (climbed : List String) {descended : List String}
    (h : ∀ n ∈ descended, IsName n) :
    ∃ rest, (wayText (upDown climbed descended)).toList.splitOn '/' =
      List.replicate climbed.length ['.', '.'] ++ rest ∧ ['.', '.'] ∉ rest := by
  by_cases hnil : upDown climbed descended = []
  · obtain ⟨hup, -⟩ := List.append_eq_nil_iff.1 hnil
    obtain rfl : climbed = [] := by simpa using hup
    refine ⟨[[]], ?_, by decide⟩
    rw [hnil]
    rfl
  · refine ⟨descended.map String.toList, ?_, ?_⟩
    · rw [segments_wayText hnil (spelled_upDown climbed h), upDown, List.map_append,
        List.map_replicate, List.map_map]
      rfl
    · intro hmem
      obtain ⟨n, hn, hdots⟩ := List.mem_map.1 hmem
      exact (h n hn).ne_dots hdots

/-- The segments of a relative path: perhaps a dot, and then those of the way. -/
theorem segments_relativeText (cs : List Component) :
    ∃ lead, (lead = [] ∨ lead = [['.']]) ∧
      (relativeText cs).toList.splitOn '/' = lead ++ (wayText cs).toList.splitOn '/' := by
  unfold relativeText
  split
  · exact ⟨[], .inl rfl, rfl⟩
  · refine ⟨[['.']], .inr rfl, ?_⟩
    rw [String.toList_append]
    exact List.splitOn_append_cons_self_of_not_mem (show '/' ∉ ['.'] by decide) _

/-- Read segment by segment, the relative path of a way is the way. -/
theorem filterMap_relativeText {cs : List Component} (h : ∀ c ∈ cs, c.Spelled) :
    ((relativeText cs).toList.splitOn '/').filterMap Component.ofSegment? = cs := by
  obtain ⟨lead, hlead, hseg⟩ := segments_relativeText cs
  have hway : ((wayText cs).toList.splitOn '/').filterMap Component.ofSegment? = cs := by
    cases cs with
    | nil => rfl
    | cons c cs =>
      rw [segments_wayText (by simp) h, filterMap_spelled h]
  rw [hseg, List.filterMap_append, hway]
  rcases hlead with rfl | rfl <;> rfl

/-- Seen from the base, the relative path leads to the target. -/
theorem specifierNames?_difference {folder : Path} {base target : List String}
    (hb : folder.names? = some base) (hn : ∀ n ∈ target, IsName n) :
    folder.specifierNames? (relativeText (difference base target)).toList = some target := by
  obtain ⟨climbed, descended, hparts, hway⟩ := exists_difference_eq base target
  have hspelled := spelled_upDown climbed (hparts.isName hn)
  rw [hway, Path.specifierNames?, filterMap_relativeText hspelled, walk?_append hb,
    walkFrom?_upDown hparts]
  simp

/-! ## How a relative path starts and ends -/

theorem head?_relativeText (cs : List Component) : (relativeText cs).toList.head? = some '.' := by
  unfold relativeText
  split
  · rename_i h
    obtain ⟨rest, hrest⟩ := List.isPrefixOf_iff_prefix.1 h
    rw [← hrest]
    rfl
  · rw [String.toList_append]
    rfl

/-- A relative path is spelled with dots, slashes and the texts of its way. -/
theorem of_mem_relativeText {P : Char → Prop} (hslash : P '/') (hdot : P '.') {cs : List Component}
    (h : ∀ c ∈ cs, ∀ x ∈ c.text.toList, P x) : ∀ x ∈ (relativeText cs).toList, P x := by
  have hway : ∀ x ∈ (wayText cs).toList, P x := by
    unfold wayText
    induction cs with
    | nil => simp
    | cons c cs ih =>
      have htail := ih fun d hd => h d (List.mem_cons_of_mem c hd)
      intro x hx
      cases cs with
      | nil => exact h c List.mem_cons_self x (by simpa using hx)
      | cons d cs =>
        rw [List.map_cons, List.map_cons, String.intercalate_cons_cons, String.toList_append,
          String.toList_append, List.append_assoc, List.mem_append] at hx
        rcases hx with hx | hx
        · exact h c List.mem_cons_self x hx
        rcases List.mem_cons.1 hx with rfl | hx
        · exact hslash
        · exact htail x hx
  intro x hx
  unfold relativeText at hx
  split at hx
  · exact hway x hx
  · rw [String.toList_append] at hx
    rcases List.mem_cons.1 hx with rfl | hx
    · exact hdot
    rcases List.mem_cons.1 hx with rfl | hx
    · exact hslash
    · exact hway x hx

theorem getLast?_upDown (climbed descended : List String) :
    (upDown climbed descended).getLast? =
      (descended.getLast?.map .name).or (if climbed.length = 0 then none else some .up) := by
  rw [upDown, List.getLast?_append, List.getLast?_map, List.getLast?_replicate]

/-- A way down ends in the last name, a way that only goes up in two dots. -/
theorem afterLast_relativeText {climbed descended : List String} (h : ∀ n ∈ descended, IsName n) :
    Text.afterLast '/' (relativeText (upDown climbed descended)).toList =
      match descended.getLast? with
      | some n => n.toList
      | none => if climbed = [] then [] else ['.', '.'] := by
  have hway : Text.afterLast '/' (relativeText (upDown climbed descended)).toList =
      Text.afterLast '/' (wayText (upDown climbed descended)).toList := by
    unfold relativeText
    split
    · rfl
    · rw [String.toList_append]
      exact Text.afterLast_append_cons '/' ['.'] _
  rw [hway]
  by_cases hnil : upDown climbed descended = []
  · obtain ⟨hup, hdown⟩ := List.append_eq_nil_iff.1 hnil
    obtain rfl : climbed = [] := by simpa using hup
    obtain rfl : descended = [] := by simpa using hdown
    rfl
  · have hlast := Text.getLast?_splitOn '/' (wayText (upDown climbed descended)).toList
    rw [segments_wayText hnil (spelled_upDown climbed h), List.getLast?_map,
      getLast?_upDown] at hlast
    cases hd : descended.getLast? with
    | some n => simpa [hd, Component.text] using hlast.symm
    | none =>
      cases climbed with
      | nil =>
        obtain rfl : descended = [] := List.getLast?_eq_none_iff.1 hd
        exact absurd rfl hnil
      | cons m climbed => simpa [hd, Component.text] using hlast.symm

/-- Where the target lies above the base, or is the base, the path ends in
dots or in nothing. -/
theorem afterLast_difference_above {base target : List String} (h : target <+: base) :
    Text.afterLast '/' (relativeText (difference base target)).toList =
      if target = base then [] else ['.', '.'] := by
  obtain ⟨climbed, descended, hparts, hway⟩ := exists_difference_eq base target
  obtain rfl := hparts.descended_eq_nil_iff.2 h
  obtain ⟨⟨shared, rfl, rfl⟩, -⟩ := hparts
  rw [hway, afterLast_relativeText (by simp)]
  simp

/-- Elsewhere it ends in the last name of the target. -/
theorem afterLast_difference_aside {base above : List String} {name : String}
    (hn : ∀ n ∈ above ++ [name], IsName n) (h : ¬ above ++ [name] <+: base) :
    Text.afterLast '/' (relativeText (difference base (above ++ [name]))).toList =
      name.toList := by
  obtain ⟨climbed, descended, hparts, hway⟩ := exists_difference_eq base (above ++ [name])
  have hne : descended ≠ [] := fun hnil => h (hparts.descended_eq_nil_iff.1 hnil)
  have hdescended := hparts.isName hn
  obtain ⟨⟨shared, -, htarget⟩, -⟩ := hparts
  have hlast : descended.getLast? = some name := by
    have hends := congrArg List.getLast? htarget
    rw [List.getLast?_append, List.getLast?_append, List.getLast?_eq_some_getLast hne] at hends
    rw [List.getLast?_eq_some_getLast hne]
    simpa using hends.symm
  rw [hway, afterLast_relativeText hdescended, hlast]

/-! ## The relative text of a module -/

namespace Layout

theorem relativeText?_eq (l : Layout) (home name : String) (folder : Path) :
    l.relativeText? home name folder = folder.names?.bind fun base =>
      (l.homePath home name).names?.map fun target => relativeText (difference base target) := by
  unfold relativeText?
  cases folder.names? with
  | none => rfl
  | some base =>
    cases (l.homePath home name).names? with
    | none => rfl
    | some target =>
      change (if _ then some _ else some _) = some (relativeText _)
      rw [relativeText, apply_ite some]
      rfl

theorem canonical?_of_isRelative {style : Style} (hs : style.isRelative) (l : Layout)
    (home name : String) (folder : Path) :
    l.canonical? home name folder style = l.relativeText? home name folder := by
  cases style with
  | sameFolder => rfl
  | otherFolder => rfl
  | aliased => cases hs
  | malformed => cases hs

theorem names?_homePath {l : Layout} {home name : String} (hn : IsName name) {target : List String}
    (h : (l.homePath home name).names? = some target) :
    ∃ above, (l.componentsDir.join ⟨home⟩).names? = some above ∧ target = above ++ [name] := by
  rw [Path.names?, homePath, Path.components_join_name _ hn, walk?_eq, walkFrom?_append] at h
  obtain ⟨names, hnames, rfl⟩ := Option.map_eq_some_iff.1 h
  obtain ⟨place, hplace, hlast⟩ := Option.bind_eq_some_iff.1 hnames
  cases hlast
  exact ⟨place.reverse, by rw [Path.names?, walk?_eq, hplace]; rfl, List.reverse_cons⟩

/-- The relative text of a module, in a file of a folder, leads to the
module's home. It goes up once for each name of the folder beyond those that
folder and home begin with, and it goes up first; a leading dot aside. There
is no text exactly where the folder or the home lies outside the project. -/
theorem canonical?_leads_home (l : Layout) (home name : String) (folder : Path) (style : Style)
    (hs : style.isRelative) :
    (l.canonical? home name folder style = none ↔
      folder.normalize? = none ∨ (l.homePath home name).normalize? = none) ∧
    ∀ t, l.canonical? home name folder style = some t →
      folder.joinSpecifier? t.toList = (l.homePath home name).normalize? ∧
      ∃ base target shared climbed descended,
        folder.normalize? = some base ∧ (l.homePath home name).normalize? = some target ∧
        base.components = shared ++ climbed ∧ target.components = shared ++ descended ∧
        (∀ c, climbed.head? = some c → descended.head? ≠ some c) ∧
        ∃ lead rest, t.toList.splitOn '/' =
            lead ++ List.replicate climbed.length ['.', '.'] ++ rest ∧
          (lead = [] ∨ lead = [['.']]) ∧ ['.', '.'] ∉ rest := by
  rw [canonical?_of_isRelative hs, relativeText?_eq]
  refine ⟨?_, ?_⟩
  · cases hb : folder.names? <;> cases ht : (l.homePath home name).names? <;>
      simp [Path.normalize?, hb, ht]
  · intro t h
    obtain ⟨base, hb, h⟩ := Option.bind_eq_some_iff.1 h
    obtain ⟨target, ht, rfl⟩ := Option.map_eq_some_iff.1 h
    have hnames := isName_of_names? ht
    obtain ⟨climbed, descended, hparts, hway⟩ := exists_difference_eq base target
    obtain ⟨shared, hbase, htarget⟩ := hparts.shared
    refine ⟨?_, .ofNames base, .ofNames target, shared.map .name, climbed.map .name,
      descended.map .name, by rw [Path.normalize?, hb]; rfl, by rw [Path.normalize?, ht]; rfl,
      ?_, ?_, hparts.parted_names, ?_⟩
    · rw [Path.joinSpecifier?, specifierNames?_difference hb hnames, Path.normalize?, ht]
    · rw [Path.components_ofNames (isName_of_names? hb), hbase, List.map_append]
    · rw [Path.components_ofNames hnames, htarget, List.map_append]
    · obtain ⟨lead, hlead, hseg⟩ := segments_relativeText (upDown climbed descended)
      obtain ⟨rest, hrest, hnodots⟩ := segments_upDown climbed (hparts.isName hnames)
      refine ⟨lead, rest, ?_, hlead, hnodots⟩
      rw [hway, hseg, hrest, List.length_map, List.append_assoc]

/-- From a folder beside the components: two names to leave, and up twice. -/
theorem canonical?_leads_home_button :
    Style.otherFolder.isRelative ∧
    ({} : Layout).canonical? "common" "Button" ⟨"src/routes/./auth"⟩ .otherFolder =
      some "../../components/common/Button" ∧
    (⟨"src/routes/./auth"⟩ : Path).joinSpecifier? "../../components/common/Button".toList =
      (({} : Layout).homePath "common" "Button").normalize? := by
  have htext : ({} : Layout).canonical? "common" "Button" ⟨"src/routes/./auth"⟩ .otherFolder =
      some "../../components/common/Button" := by rfl
  have hleads := canonical?_leads_home {} "common" "Button" ⟨"src/routes/./auth"⟩ .otherFolder rfl
  exact ⟨rfl, htext, (hleads.2 "../../components/common/Button" htext).1⟩

end Layout

end Relocate
