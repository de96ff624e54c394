import Mathlib.Data.List.Dedup
import Mathlib.Data.List.Induction
import Relocate.Registry

/-!
# Which records make a registry

Records are read one after another, and each is held against what the ones
before it have left in the registry. A fault is told by the record and the
records before it alone (`Misfit`), and a registry that comes about knows the
records read so far and nothing else (`Knows`).

* `Knows.add`: one record. It gets known or is refused, and the fault says why.
* `knows_or_misfit`: a list of records, from its end.
* `ofRecords_exact`: what makes a registry, what it knows, and which fault
  comes otherwise. Only the fault depends on the order of the records.
-/
namespace Relocate

/-- A text that is one segment of a path: not empty, and without a slash. -/
structure IsBare (s : String) : Prop where
  ne_empty : s ≠ ""
  noSlash : '/' ∉ s.toList

theorem isSegment_iff {s : String} : isSegment s ↔ IsBare s := by
  unfold isSegment
  rw [Bool.and_eq_true]
  constructor
  · intro h
    exact ⟨by simpa using h.1, by simpa using h.2⟩
  · intro h
    exact ⟨by simpa using h.ne_empty, by simpa using h.noSlash⟩

instance (s : String) : Decidable (IsBare s) := decidable_of_iff (isSegment s) isSegment_iff

/-- Records of bare names and bare homes, with one home for each name. -/
structure Unambiguous (records : List Record) : Prop where
  name : ∀ x ∈ records, IsBare x.name
  home : ∀ x ∈ records, IsBare x.home
  agree : ∀ x ∈ records, ∀ y ∈ records, x.name = y.name → x.home = y.home

/-- What is wrong with a record that comes behind earlier ones. A collision
names the home of the earliest record of that name first. -/
inductive Misfit (earlier : List Record) (x : Record) : Fault → Prop where
  | name (hname : ¬ IsBare x.name) : Misfit earlier x (.config (.moduleName x.name))
  | home (hname : IsBare x.name) (hhome : ¬ IsBare x.home) :
      Misfit earlier x (.config (.folderName x.home x.name))
  | collision (first : Record) (hname : IsBare x.name) (hhome : IsBare x.home)
      (hfirst : earlier.find? (·.name = x.name) = some first) (hother : first.home ≠ x.home) :
      Misfit earlier x (.collision x.name first.home x.home)

theorem Misfit.unique {earlier : List Record} {x : Record} {fault fault' : Fault}
    (h : Misfit earlier x fault) (h' : Misfit earlier x fault') : fault = fault' := by
  cases h with
  | name hname =>
    cases h' with
    | name => rfl
    | home hbare => exact absurd hbare hname
    | collision _ hbare => exact absurd hbare hname
  | home hbare hhome =>
    cases h' with
    | name hname => exact absurd hbare hname
    | home => rfl
    | collision _ _ hbare => exact absurd hbare hhome
  | collision first hname hhome hfirst =>
    cases h' with
    | name hbad => exact absurd hname hbad
    | home _ hbad => exact absurd hhome hbad
    | collision _ _ _ hfirst' =>
      rw [hfirst] at hfirst'
      cases hfirst'
      rfl

namespace Unambiguous

variable {records others earlier later : List Record} {x : Record}

theorem mono (h : Unambiguous records) (hsub : others ⊆ records) : Unambiguous others :=
  ⟨fun x hx => h.name x (hsub hx), fun x hx => h.home x (hsub hx),
    fun x hx y hy => h.agree x (hsub hx) y (hsub hy)⟩

theorem not_misfit {fault : Fault} (h : Unambiguous (earlier ++ x :: later)) :
    ¬ Misfit earlier x fault := by
  have hx : x ∈ earlier ++ x :: later := List.mem_append_right earlier List.mem_cons_self
  intro hfit
  cases hfit with
  | name hname => exact hname (h.name x hx)
  | home _ hhome => exact hhome (h.home x hx)
  | collision first _ _ hfirst hother =>
    have hmem := List.mem_append_left (x :: later) (List.mem_of_find?_eq_some hfirst)
    have hsame := List.find?_some hfirst
    exact hother (h.agree first hmem x hx (by simpa using hsame))

theorem concat (h : Unambiguous earlier) (hname : IsBare x.name) (hhome : IsBare x.home)
    (hnew : ∀ y ∈ earlier, y.name ≠ x.name) : Unambiguous (earlier ++ [x]) := by
  refine ⟨?_, ?_, ?_⟩
  · intro y hy
    rcases List.mem_append.1 hy with hy | hy
    · exact h.name y hy
    · rwa [List.mem_singleton.1 hy]
  · intro y hy
    rcases List.mem_append.1 hy with hy | hy
    · exact h.home y hy
    · rwa [List.mem_singleton.1 hy]
  · intro y hy z hz hsame
    rcases List.mem_append.1 hy with hy | hy <;> rcases List.mem_append.1 hz with hz | hz
    · exact h.agree y hy z hz hsame
    · rw [List.mem_singleton.1 hz] at hsame
      exact absurd hsame (hnew y hy)
    · rw [List.mem_singleton.1 hy] at hsame
      exact absurd hsame.symm (hnew z hz)
    · rw [List.mem_singleton.1 hy, List.mem_singleton.1 hz]

end Unambiguous

namespace Registry

variable {r r' : Registry} {earlier records others : List Record} {x : Record}

/-- The registry knows just these records, each name once. -/
structure Knows (r : Registry) (records : List Record) : Prop where
  unambiguous : Unambiguous records
  home?_iff : ∀ name home, r.home? name = some home ↔ ⟨name, home⟩ ∈ records
  nodup : (r.rows.map Prod.fst).Nodup

/-! ## One record -/

theorem home?_eq_none_iff {name : String} : r.home? name = none ↔ name ∉ r.rows.map Prod.fst := by
  unfold home?
  rw [List.lookup_eq_none_iff, List.mem_map, not_exists]
  refine forall_congr' fun row => ?_
  rw [bne_iff_ne, not_and]
  exact imp_congr_right fun _ => ne_comm

theorem home?_concat (hnew : r.home? x.name = none) (name : String) :
    (⟨r.rows ++ [(x.name, x.home)]⟩ : Registry).home? name =
      if name = x.name then some x.home else r.home? name := by
  unfold home? at hnew ⊢
  rw [List.lookup_append]
  by_cases hsame : name = x.name
  · rw [if_pos hsame, hsame, hnew]
    simp
  · rw [if_neg hsame, List.lookup_cons, beq_false_of_ne hsame]
    simp

namespace Knows

theorem home?_eq_find? (h : r.Knows earlier) (name : String) :
    r.home? name = (earlier.find? (·.name = name)).map Record.home := by
  cases hfind : earlier.find? (·.name = name) with
  | none =>
    rw [Option.map_none, Option.eq_none_iff_forall_ne_some]
    intro home hhome
    have hnot := List.find?_eq_none.1 hfind _ ((h.home?_iff name home).1 hhome)
    exact hnot (by simp)
  | some first =>
    have hmem := List.mem_of_find?_eq_some hfind
    obtain rfl : first.name = name := by simpa using List.find?_some hfind
    exact (h.home?_iff first.name first.home).2 hmem

/-- Only which records there are counts. -/
theorem congr (h : r.Knows records) (hsame : ∀ x, x ∈ others ↔ x ∈ records) : r.Knows others :=
  ⟨h.unambiguous.mono fun x hx => (hsame x).1 hx,
    fun name home => (h.home?_iff name home).trans (hsame _).symm, h.nodup⟩

/-- A record that is known already changes nothing. -/
theorem again (h : r.Knows earlier) (hx : x ∈ earlier) : r.Knows (earlier ++ [x]) := by
  refine h.congr fun y => ?_
  rw [List.mem_append, List.mem_singleton]
  constructor
  · intro hy
    rcases hy with hy | rfl
    · exact hy
    · exact hx
  · exact .inl

/-- A record of a name without a home gives it one. -/
theorem fresh (h : r.Knows earlier) (hname : IsBare x.name) (hhome : IsBare x.home)
    (hnew : r.home? x.name = none) :
    (⟨r.rows ++ [(x.name, x.home)]⟩ : Registry).Knows (earlier ++ [x]) := by
  have hother : ∀ y ∈ earlier, y.name ≠ x.name := by
    intro y hy hsame
    have hknown := (h.home?_iff y.name y.home).2 hy
    rw [hsame, hnew] at hknown
    cases hknown
  refine ⟨h.unambiguous.concat hname hhome hother, ?_, ?_⟩
  · intro name home
    rw [home?_concat hnew, List.mem_append, List.mem_singleton, ← h.home?_iff]
    split
    · rename_i hsame
      subst hsame
      rw [hnew]
      cases x
      simp [eq_comm]
    · rename_i hne
      constructor
      · exact .inl
      · intro hmem
        rcases hmem with hold | rfl
        · exact hold
        · exact absurd rfl hne
  · rw [List.map_append, List.map_singleton, ← List.concat_eq_append]
    exact h.nodup.concat (home?_eq_none_iff.1 hnew)

/-- A record is taken in, or it is refused because it does not fit. -/
theorem add (h : r.Knows earlier) (x : Record) :
    (∃ r', r.add x = .ok r' ∧ r'.Knows (earlier ++ [x])) ∨
      ∃ fault, r.add x = .error fault ∧ Misfit earlier x fault := by
  unfold Registry.add
  by_cases hname : IsBare x.name
  · by_cases hhome : IsBare x.home
    · rw [if_neg (by simp [isSegment_iff.2 hname]), if_neg (by simp [isSegment_iff.2 hhome])]
      cases hold : r.home? x.name with
      | none => exact .inl ⟨_, rfl, h.fresh hname hhome hold⟩
      | some home =>
        by_cases hsame : home = x.home
        · subst hsame
          exact .inl ⟨r, if_pos rfl, h.again ((h.home?_iff _ _).1 hold)⟩
        · obtain ⟨first, hfirst, rfl⟩ := Option.map_eq_some_iff.1 (h.home?_eq_find? _ ▸ hold)
          exact .inr ⟨_, if_neg hsame, .collision first hname hhome hfirst hsame⟩
    · rw [if_neg (by simp [isSegment_iff.2 hname]), if_pos (by simpa [← isSegment_iff] using hhome)]
      exact .inr ⟨_, rfl, .home hname hhome⟩
  · rw [if_pos (by simpa [← isSegment_iff] using hname)]
    exact .inr ⟨_, rfl, .name hname⟩

end Knows

/-! ## A list of records -/

theorem ofRecords_append (records later : List Record) :
    ofRecords (records ++ later) = (ofRecords records).bind (later.foldlM Registry.add ·) := by
  rw [ofRecords, List.foldlM_append]
  rfl

/-- The fault is that of the first record that does not fit. -/
def FirstMisfit (records : List Record) (fault : Fault) : Prop :=
  ∃ earlier x later, records = earlier ++ x :: later ∧ Unambiguous earlier ∧
    Misfit earlier x fault

/-- The records become known, all of them, or one is the first not to fit. -/
theorem knows_or_misfit (records : List Record) :
    (∃ r, ofRecords records = .ok r ∧ r.Knows records) ∨
      ∃ fault, ofRecords records = .error fault ∧ FirstMisfit records fault := by
  induction records using List.reverseRecOn with
  | nil => exact .inl ⟨{}, rfl, ⟨by simp, by simp, by simp⟩, by simp [home?], .nil⟩
  | append_singleton earlier x ih =>
    rcases ih with ⟨r, hr, hknows⟩ | ⟨fault, hfault, front, y, later, rfl, hfront, hfit⟩
    · rcases hknows.add x with ⟨r', hr', hknows'⟩ | ⟨fault, hfault, hfit⟩
      · refine .inl ⟨r', ?_, hknows'⟩
        rw [ofRecords_append, hr]
        simpa [Except.bind] using hr'
      · refine .inr ⟨fault, ?_, earlier, x, [], rfl, hknows.unambiguous, hfit⟩
        rw [ofRecords_append, hr]
        simpa [Except.bind] using hfault
    · refine .inr ⟨fault, ?_, front, y, later ++ [x], by simp, hfront, hfit⟩
      rw [ofRecords_append, hfault]
      rfl

theorem Knows.of_ofRecords (h : ofRecords records = .ok r) : r.Knows records := by
  rcases knows_or_misfit records with ⟨r', hr', hknows⟩ | ⟨fault, hfault, -⟩
  · rw [h] at hr'
    cases hr'
    exact hknows
  · rw [h] at hfault
    cases hfault

theorem exists_ofRecords_iff : (∃ r, ofRecords records = .ok r) ↔ Unambiguous records := by
  constructor
  · rintro ⟨r, hr⟩
    exact (Knows.of_ofRecords hr).unambiguous
  · intro h
    rcases knows_or_misfit records with ⟨r, hr, -⟩ | ⟨fault, -, earlier, x, later, rfl, -, hfit⟩
    · exact ⟨r, hr⟩
    · exact absurd hfit h.not_misfit

/-- Behind records that make a registry, the first one that does not fit
decides, whatever comes later. -/
theorem ofRecords_eq_error_iff {fault : Fault} :
    ofRecords records = .error fault ↔ FirstMisfit records fault := by
  constructor
  · intro h
    rcases knows_or_misfit records with ⟨r, hr, -⟩ | ⟨fault', hfault', hfirst⟩
    · rw [h] at hr
      cases hr
    · rw [h] at hfault'
      cases hfault'
      exact hfirst
  · rintro ⟨earlier, x, later, rfl, hearlier, hfit⟩
    obtain ⟨r, hr⟩ := exists_ofRecords_iff.2 hearlier
    rcases (Knows.of_ofRecords hr).add x with ⟨r', -, hknows⟩ | ⟨fault', hadd, hfit'⟩
    · exact absurd hfit hknows.unambiguous.not_misfit
    · rw [ofRecords_append, hr, hfit.unique hfit', Except.bind, List.foldlM_cons, hadd]
      rfl

/-! ## What a registry tells -/

theorem Knows.home?_eq (h : r.Knows records) (h' : r'.Knows records) (name : String) :
    r'.home? name = r.home? name :=
  Option.ext fun home => (h'.home?_iff name home).trans (h.home?_iff name home).symm

theorem Knows.size_eq (h : r.Knows records) :
    r.size = (records.map Record.name).dedup.length := by
  have hnames : ∀ name, name ∈ r.rows.map Prod.fst ↔ name ∈ (records.map Record.name).dedup := by
    intro name
    rw [List.mem_dedup, ← not_iff_not, ← home?_eq_none_iff, Option.eq_none_iff_forall_ne_some,
      List.mem_map, not_exists]
    constructor
    · rintro hnone x ⟨hx, rfl⟩
      exact hnone x.home ((h.home?_iff x.name x.home).2 hx)
    · intro hnone home hhome
      exact hnone ⟨name, home⟩ ⟨(h.home?_iff name home).1 hhome, rfl⟩
  have hperm := (List.perm_ext_iff_of_nodup h.nodup (List.nodup_dedup _)).2 hnames
  rw [size, ← hperm.length_eq, List.length_map]

/-- Records make a registry exactly when names and homes are bare and each
name has one home. The registry then finds for a name the home that a record
gives it, and is as large as there are names. The same records in another
order, or some of them more than once, do as well and are found alike.
Otherwise the fault is that of the first record that does not fit behind those
before it. -/
theorem ofRecords_exact (records : List Record) :
    ((∃ r, ofRecords records = .ok r) ↔ Unambiguous records) ∧
    (∀ r, ofRecords records = .ok r →
      (∀ name home, r.home? name = some home ↔ ⟨name, home⟩ ∈ records) ∧
        r.size = (records.map Record.name).dedup.length) ∧
    (∀ others : List Record, (∀ x, x ∈ others ↔ x ∈ records) →
      ((∃ r, ofRecords others = .ok r) ↔ ∃ r, ofRecords records = .ok r) ∧
        ∀ r r', ofRecords records = .ok r → ofRecords others = .ok r' →
          (∀ name, r'.home? name = r.home? name) ∧ r'.size = r.size) ∧
    ∀ fault, ofRecords records = .error fault ↔ FirstMisfit records fault := by
  refine ⟨exists_ofRecords_iff, ?_, ?_, fun fault => ofRecords_eq_error_iff⟩
  · intro r hr
    have hknows := Knows.of_ofRecords hr
    exact ⟨hknows.home?_iff, hknows.size_eq⟩
  · intro others hsame
    refine ⟨?_, ?_⟩
    · rw [exists_ofRecords_iff, exists_ofRecords_iff]
      exact ⟨fun h => h.mono fun x hx => (hsame x).2 hx, fun h => h.mono fun x hx => (hsame x).1 hx⟩
    · intro r r' hr hr'
      have hknows := Knows.of_ofRecords hr
      have hknows' := (Knows.of_ofRecords hr').congr fun x => (hsame x).symm
      exact ⟨hknows.home?_eq hknows', hknows'.size_eq.trans hknows.size_eq.symm⟩

/-- Two records the other way round, one of them twice, are found alike. A
collision is the fault, and not the empty name behind it. -/
theorem ofRecords_exact_map :
    (∃ r, ofRecords [⟨"Map", "view"⟩, ⟨"Button", "common"⟩, ⟨"Map", "view"⟩] = .ok r ∧
      r.home? "Map" = some "view" ∧ r.size = 2) ∧
    ofRecords [⟨"Button", "common"⟩, ⟨"Map", "view"⟩, ⟨"Button", "view"⟩, ⟨"", "view"⟩] =
      .error (.collision "Button" "common" "view") := by
  have hr : ofRecords [⟨"Button", "common"⟩, ⟨"Map", "view"⟩] =
      .ok ⟨[("Button", "common"), ("Map", "view")]⟩ := by rfl
  have hexact := ofRecords_exact [⟨"Button", "common"⟩, ⟨"Map", "view"⟩]
  constructor
  · have hsame : ∀ x : Record, x ∈ [⟨"Map", "view"⟩, ⟨"Button", "common"⟩, ⟨"Map", "view"⟩] ↔
        x ∈ [⟨"Button", "common"⟩, ⟨"Map", "view"⟩] := by
      intro x
      simp only [List.mem_cons, List.not_mem_nil, or_false]
      grind
    obtain ⟨hok, halike⟩ := hexact.2.2.1 _ hsame
    obtain ⟨r, hr'⟩ := hok.2 ⟨_, hr⟩
    obtain ⟨hhome, hsize⟩ := halike _ r hr hr'
    exact ⟨r, hr', hhome "Map", hsize⟩
  · refine ((ofRecords_exact _).2.2.2 _).2 ⟨[⟨"Button", "common"⟩, ⟨"Map", "view"⟩],
      ⟨"Button", "view"⟩, [⟨"", "view"⟩], rfl, hexact.1.1 ⟨_, hr⟩, ?_⟩
    exact .collision ⟨"Button", "common"⟩ (by decide) (by decide) rfl (by decide)

end Registry

end Relocate
