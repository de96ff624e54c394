import Relocate.Config.Basic
import Relocate.Proofs.Rewrite.Target

/-!
# What an edit keeps of a path

An edit is to correct the folders of a path and nothing else: the path stays
aliased or relative, and its last segment stays. Aliased paths keep both. A
relative path is the way to the module, and it loses its last segment where
the way ends above the module: in a file at or below a folder that is called
like the module.

* `isDotted_difference_above`, `isDotted_difference_aside`: when a way starts
  with a dot segment.
* `edit_keeps_shape_iff`: the edits that keep family and last segment.
* `edit_loses_name`: an edit that does not.
-/
namespace Relocate

open Text

/-! ## Dot segments in front -/

theorem wayText_cons (c : Component) (cs : List Component) :
    (cs = [] ∧ (wayText (c :: cs)).toList = c.text.toList) ∨
      (cs ≠ [] ∧ (wayText (c :: cs)).toList = c.text.toList ++ '/' :: (wayText cs).toList) := by
  cases cs with
  | nil => exact .inl ⟨rfl, by simp [wayText]⟩
  | cons d cs => exact .inr ⟨by simp, by simp [wayText]⟩

theorem toList_relativeText_of_dots {cs : List Component} {rest : List Char}
    (h : (wayText cs).toList = '.' :: '.' :: rest) :
    (relativeText cs).toList = '.' :: '.' :: rest := by
  rw [relativeText, h, if_pos (by simp), h]

/-- A way that goes up, and on from there, starts with two dots and a slash. -/
theorem isDotted_up {cs : List Component} (hcs : cs ≠ []) (tail : List Char) :
    Import.isDotted ((relativeText (.up :: cs)).toList ++ tail) := by
  rcases wayText_cons .up cs with ⟨hnil, -⟩ | ⟨-, hway⟩
  · exact absurd hnil hcs
  · rw [toList_relativeText_of_dots hway]
    simp [Import.isDotted]

theorem isDotted_ups {tail : List Char} (htail : tail.head? ≠ some '/') (n : Nat) :
    Import.isDotted ((relativeText (List.replicate n .up)).toList ++ tail) ↔ n ≠ 1 := by
  match n with
  | 0 => simp [relativeText, wayText, Import.isDotted]
  | 1 =>
    have hway : (wayText [.up]).toList = ['.', '.'] := rfl
    rw [List.replicate_one, toList_relativeText_of_dots hway]
    cases tail with
    | nil => simp [Import.isDotted]
    | cons x tail =>
      have hx : ¬ x = '/' := by simpa using htail
      simp [Import.isDotted, Ne.symm hx]
  | n + 2 =>
    rw [List.replicate_succ]
    simp [isDotted_up]

/-- A name is no dot segment, whatever follows it. -/
theorem IsName.not_isDotted {n : String} (h : IsName n) (tail : List Char) :
    Import.isDotted (n.toList ++ tail) = false ∧
      ['.', '.'].isPrefixOf (n.toList ++ tail) = ['.', '.'].isPrefixOf n.toList := by
  obtain ⟨hslash, hnil, hdot, hdots⟩ := h
  cases hn : n.toList with
  | nil => exact absurd hn hnil
  | cons a s =>
    rw [hn] at hslash hdot hdots
    simp only [List.mem_cons, not_or] at hslash
    cases s with
    | nil =>
      have ha : ¬ '.' = a := fun h => hdot (by rw [h])
      simp [Import.isDotted, List.isPrefixOf, ha]
    | cons b s =>
      simp only [List.mem_cons, not_or] at hslash
      cases s with
      | nil =>
        have hb : '.' = a → ¬ '.' = b := fun ha hb => hdots (by rw [← ha, ← hb])
        simpa [Import.isDotted, List.isPrefixOf, hslash.2.1] using fun ha h => absurd h (hb ha)
      | cons x s =>
        simp only [List.mem_cons, not_or] at hslash
        simp [Import.isDotted, List.isPrefixOf, hslash.2.1, hslash.2.2.1]

theorem isDotted_names {first : String} (h : IsName first) (more : List String) (tail : List Char) :
    Import.isDotted ((relativeText ((first :: more).map .name)).toList ++ tail) ↔
      ¬ ['.', '.'] <+: first.toList := by
  obtain ⟨rest, hway⟩ : ∃ rest, (wayText ((first :: more).map .name)).toList =
      first.toList ++ rest := by
    rcases wayText_cons (.name first) (more.map .name) with ⟨-, hway⟩ | ⟨-, hway⟩
    · exact ⟨[], by rw [List.append_nil]; exact hway⟩
    · exact ⟨_, hway⟩
  have hdots := (h.not_isDotted rest).2
  rw [← hway] at hdots
  rw [relativeText, hdots, ← List.isPrefixOf_iff_prefix]
  cases hfirst : ['.', '.'].isPrefixOf first.toList with
  | true =>
    rw [if_pos rfl, hway, List.append_assoc, (h.not_isDotted _).1]
    simp
  | false =>
    rw [if_neg (by simp), String.toList_append]
    simp [Import.isDotted]

theorem isDotted_difference_above {base target : List String} (h : target <+: base)
    {tail : List Char} (htail : tail.head? ≠ some '/') :
    Import.isDotted ((relativeText (difference base target)).toList ++ tail) ↔
      target.length + 1 ≠ base.length := by
  obtain ⟨climbed, descended, hparts, hway⟩ := exists_difference_eq base target
  obtain rfl := hparts.descended_eq_nil_iff.2 h
  obtain ⟨⟨shared, rfl, rfl⟩, -⟩ := hparts
  have hups : upDown climbed [] = List.replicate climbed.length .up := by simp [upDown]
  rw [hway, hups, isDotted_ups htail]
  simp only [List.length_append, List.length_nil]
  omega

theorem isDotted_difference_aside {base target : List String} (hn : ∀ n ∈ target, IsName n)
    (h : ¬ target <+: base) (tail : List Char) :
    Import.isDotted ((relativeText (difference base target)).toList ++ tail) ↔
      ∀ first more, target = base ++ first :: more → ¬ ['.', '.'] <+: first.toList := by
  obtain ⟨climbed, descended, hparts, hway⟩ := exists_difference_eq base target
  have hdescended : descended ≠ [] := fun hnil => h (hparts.descended_eq_nil_iff.1 hnil)
  rw [hway]
  by_cases hclimbed : climbed = []
  · -- The way goes down only, and its first name decides.
    subst hclimbed
    obtain ⟨⟨shared, rfl, rfl⟩, -⟩ := hparts
    obtain ⟨first, more, rfl⟩ := List.exists_cons_of_ne_nil hdescended
    have hfirst := hn first (List.mem_append_right shared List.mem_cons_self)
    have hnames : upDown [] (first :: more) = (first :: more).map .name := rfl
    rw [hnames, isDotted_names hfirst, List.append_nil]
    constructor
    · intro hdots first' more' hsplit
      obtain ⟨rfl, -⟩ := List.cons.inj (List.append_cancel_left hsplit)
      exact hdots
    · intro hall
      exact hall first more rfl
  · -- The way goes up first, and the target is not below the base.
    obtain ⟨c, climbed, rfl⟩ := List.exists_cons_of_ne_nil hclimbed
    have hups : upDown (c :: climbed) descended =
        .up :: (List.replicate climbed.length .up ++ descended.map .name) := by
      simp [upDown, List.replicate_succ]
    have hrest : List.replicate climbed.length .up ++ descended.map Component.name ≠ [] := by
      simp [hdescended]
    rw [hups]
    refine iff_of_true (isDotted_up hrest tail) ?_
    intro first more hsplit
    exact absurd (hparts.symm.descended_eq_nil_iff.2 ⟨first :: more, hsplit.symm⟩) hclimbed

/-! ## Edits -/

/-- The new path is aliased or relative, as the old one was. -/
def Edit.KeepsFamily (l : Layout) (edit : Edit) : Prop :=
  if edit.style = .aliased then l.aliasBase ++ ['/'] <+: edit.after.toList
  else Import.isDotted edit.after.toList

/-- The new path ends in the segment that the old one ended in. -/
def Edit.KeepsEnd (edit : Edit) : Prop :=
  afterLast '/' edit.after.toList = afterLast '/' edit.before.toList

/-- The way from `base` to the module `name`, which lives at `target`, starts
with a dot segment and ends in the name. A module called `..` lives above its
home, and its name is said by a way that ends in going up. -/
def WayKeepsName (base target : List String) (name : String) : Prop :=
  if name = ".." then target <+: base ∧ target.length + 2 ≤ base.length
  else name ≠ "." ∧ ¬ target <+: base ∧
    ∀ first more, target = base ++ first :: more → ¬ ['.', '.'] <+: first.toList

theorem wayKeepsName_above {i : Import} {written : List Char} {base target : List String}
    (hnames : i.Names written) (habove : target <+: base) :
    (target.length + 1 ≠ base.length ∧
      (if target = base then [] else ['.', '.']) = i.name.toList) ↔
      WayKeepsName base target i.name := by
  have hle := habove.length_le
  unfold WayKeepsName
  by_cases hname : i.name = ".."
  · rw [if_pos hname, hname]
    constructor
    · rintro ⟨hone, hend⟩
      have hne : target.length ≠ base.length := by
        intro hlen
        rw [if_pos (habove.eq_of_length hlen)] at hend
        cases hend
      exact ⟨habove, by omega⟩
    · rintro ⟨-, htwo⟩
      have hne : target ≠ base := by
        rintro rfl
        omega
      exact ⟨by omega, if_neg hne⟩
  · rw [if_neg hname]
    constructor
    · rintro ⟨-, hend⟩
      split at hend
      · exact absurd hend.symm hnames.ne_empty
      · exact absurd (String.toList_inj.1 hend.symm) hname
    · rintro ⟨-, hnot, -⟩
      exact absurd habove hnot

theorem wayKeepsName_aside {l : Layout} {home : String} {i : Import} {written : List Char}
    {base above : List String} {n : String} (hnames : i.Names written)
    (htarget : (l.homePath home i.name).names? = some (above ++ [n]))
    (haside : ¬ above ++ [n] <+: base) :
    ((∀ first more, above ++ [n] = base ++ first :: more → ¬ ['.', '.'] <+: first.toList) ∧
      n.toList = i.name.toList) ↔ WayKeepsName base (above ++ [n]) i.name := by
  have hn : IsName n := isName_of_names? htarget n (by simp)
  unfold WayKeepsName
  by_cases hname : i.name = ".."
  · rw [if_pos hname, hname]
    constructor
    · rintro ⟨-, hend⟩
      exact absurd hend hn.ne_dots
    · rintro ⟨h, -⟩
      exact absurd h haside
  · rw [if_neg hname]
    constructor
    · rintro ⟨hfirst, hend⟩
      refine ⟨?_, haside, hfirst⟩
      intro hdot
      rw [hdot] at hend
      exact hn.ne_dot hend
    · rintro ⟨hdot, -, hfirst⟩
      have hi : IsName i.name := ⟨hnames.noSlash.1, hnames.ne_empty,
        fun h => hdot (String.toList_inj.1 h), fun h => hname (String.toList_inj.1 h)⟩
      obtain ⟨above', -, hsplit⟩ := Layout.names?_homePath hi htarget
      obtain ⟨-, hlast⟩ := List.append_inj' hsplit rfl
      obtain rfl : n = i.name := by simpa using hlast
      exact ⟨hfirst, rfl⟩

/-- The relative path of an import keeps what it is to keep exactly when its
way does. -/
theorem wayKeepsName_iff {l : Layout} {home : String} {i : Import} {written : List Char}
    {base target : List String} (hnames : i.Names written)
    (htarget : (l.homePath home i.name).names? = some target) :
    (Import.isDotted ((relativeText (difference base target)).toList ++
        Import.extensionText i.extension) ∧
      afterLast '/' ((relativeText (difference base target)).toList ++
        Import.extensionText i.extension) = afterLast '/' written) ↔
      WayKeepsName base target i.name := by
  have htail : (Import.extensionText i.extension).head? ≠ some '/' := fun h =>
    hnames.noSlash.2 (List.mem_of_head? h)
  rw [hnames.segment, afterLast_append hnames.noSlash.2, List.append_cancel_right_eq]
  by_cases habove : target <+: base
  · rw [isDotted_difference_above habove htail, afterLast_difference_above habove]
    exact wayKeepsName_above hnames habove
  · have hne : target ≠ [] := by
      rintro rfl
      exact habove List.nil_prefix
    obtain ⟨above, n, rfl⟩ : ∃ above n, target = above ++ [n] :=
      ⟨_, _, (List.dropLast_concat_getLast hne).symm⟩
    have htargetNames := isName_of_names? htarget
    rw [isDotted_difference_aside htargetNames habove,
      afterLast_difference_aside htargetNames habove]
    exact wayKeepsName_aside hnames htarget habove

/-- Where the author's style is kept, an edit keeps the family and the last
segment of an aliased path, and those of a relative path exactly when the way
to the module says its name. -/
theorem edit_keeps_shape_iff {e : Engine} {t : String} {folder : Path} {edit : Edit}
    (hpolicy : e.policy = .preserve) (h : edit ∈ (e.rewrite t folder).edits) :
    (edit.KeepsFamily e.layout ∧ edit.KeepsEnd) ↔
      edit.style = .aliased ∨ ∃ home base target, e.registry.home? edit.name = some home ∧
        folder.names? = some base ∧ (e.layout.homePath home edit.name).names? = some target ∧
        WayKeepsName base target edit.name := by
  obtain ⟨c, i, ht, hname, hstyle, hbefore⟩ := of_mem_edits h
  obtain ⟨-, -, hnames, -⟩ := Engine.target?_eq_some_iff.1 ht
  obtain ⟨home, hhome, hcases⟩ := Engine.target_cases ht
  have hkept : e.targetStyle folder i.style = i.style := by rw [Engine.targetStyle, hpolicy]
  rw [Edit.KeepsFamily, Edit.KeepsEnd, hname, hstyle, hbefore]
  rcases hcases with ⟨haliased, htext⟩ | ⟨hrel, -, base, target, hbase, htarget, htext⟩
  · rw [hkept] at haliased
    rw [if_pos haliased, htext]
    refine iff_of_true ⟨⟨_, List.append_assoc _ ['/'] _⟩, ?_⟩ (.inl haliased)
    exact hnames.afterLast_eq e.layout.aliasBase home.toList
  · have hne : i.style ≠ .aliased := by
      intro haliased
      rw [haliased] at hrel
      cases hrel
    rw [if_neg hne, htext, wayKeepsName_iff hnames htarget]
    constructor
    · intro hway
      exact .inr ⟨home, base, target, hhome, hbase, htarget, hway⟩
    · rintro (haliased | ⟨home', base', target', hhome', hbase', htarget', hway⟩)
      · exact absurd haliased hne
      · obtain rfl : home = home' := Option.some.inj (hhome.symm.trans hhome')
        obtain rfl : base = base' := Option.some.inj (hbase.symm.trans hbase')
        obtain rfl : target = target' := Option.some.inj (htarget.symm.trans htarget')
        exact hway

/-- From another folder of the components: up, and down to the name. -/
theorem edit_keeps_shape_iff_button :
    (⟨1, "Button", .sameFolder, "./Button", "../common/Button"⟩ : Edit).KeepsFamily {} ∧
      (⟨1, "Button", .sameFolder, "./Button", "../common/Button"⟩ : Edit).KeepsEnd := by
  have hmem : ⟨1, "Button", .sameFolder, "./Button", "../common/Button"⟩ ∈
      ((⟨⟨[("Button", "common")]⟩, {}, .preserve⟩ : Engine).rewrite "import B from './Button';\n"
        ⟨"src/components/forms"⟩).edits := by decide +kernel
  refine (edit_keeps_shape_iff rfl hmem).2 (.inr ⟨"common", ["src", "components", "forms"],
    ["src", "components", "common", "Button"], rfl, rfl, rfl, ?_⟩)
  refine ⟨by decide, by decide, ?_⟩
  intro first more h
  simp at h

/-- In a file below a folder called like the module, the way to the module
ends before its name, and the extension takes the name's place. -/
theorem edit_loses_name :
    Registry.ofRecords [⟨"Button", "common"⟩] = .ok ⟨[("Button", "common")]⟩ ∧
    ({} : Config).flaw? = none ∧
    ((⟨⟨[("Button", "common")]⟩, ({} : Config).layout, .preserve⟩ : Engine).rewrite
      "import B from './Button.tsx';\n" ⟨"src/components/common/Button"⟩).edits =
        [⟨1, "Button", .sameFolder, "./Button.tsx", "./.tsx"⟩] ∧
    ¬ (⟨1, "Button", .sameFolder, "./Button.tsx", "./.tsx"⟩ : Edit).KeepsEnd := by
  refine ⟨rfl, by decide +kernel, by decide +kernel, ?_⟩
  unfold Edit.KeepsEnd
  decide

end Relocate
