import Relocate.Proofs.Disk.Tree
import Relocate.Proofs.Path.Below

/-!
# Ways on a disk

A path is walked segment by segment (`walk`); apart from flaws of its text
this is what a path means (`resolve_eq`). `step_eq_ok_iff` says all that a step
can do, and the rest follows from it.

* `foldlM_step_names`, `IsTree.foldlM_step_down`: a way down adds its names to
  where it starts.
* `IsTree.write_of_walk`: a file that a path leads to can be written to, and
  nothing else changes.
* `IsTree.walk_lacks_iff`: a file that is taken away closes the ways to it and
  no others.
-/
namespace Relocate.Disk

variable {d e : Disk} {l k : Location} {p q : Path} {c : ByteArray}

theorem bind_eq_ok_iff {ε α β : Type} {x : Except ε α} {f : α → Except ε β} {b : β} :
    (x >>= f) = .ok b ↔ ∃ a, x = .ok a ∧ f a = .ok b := by
  cases x <;> simp [bind, Except.bind]

/-! ## Steps -/

/-- Everything that a step can do. -/
theorem step_eq_ok_iff {segment : List Char} : d.step l segment = .ok k ↔
    d.entry? l = some .folder ∧
      ((Component.ofSegment? segment = none ∧ k = l) ∨
        (Component.ofSegment? segment = some .up ∧ k = l.dropLast) ∨
        (Component.ofSegment? segment = some (.name (String.ofList segment)) ∧
          (String.ofList segment).utf8ByteSize ≤ maxNameLength ∧
          k = l ++ [String.ofList segment] ∧ (d.entry? k).isSome)) := by
  have hok : ∀ m : Location, (Except.ok m : Except DiskCause Location) = .ok k ↔ k = m :=
    fun m => Except.ok.injEq m k ▸ eq_comm
  unfold step Component.ofSegment?
  cases hl : d.entry? l with
  | none => simp
  | some a =>
    cases a with
    | file c => simp
    | folder =>
      by_cases hnone : segment = [] ∨ segment = ['.']
      · simp [hnone, hok]
      · by_cases hup : segment = ['.', '.']
        · simp [hup, hok]
        · simp only [hnone, hup, if_false]
          by_cases hsize : maxNameLength < (String.ofList segment).utf8ByteSize
          · simp [hsize, Nat.not_le.2 hsize]
          · by_cases hthere : (d.entry? (l ++ [String.ofList segment])).isSome
            · simp only [hsize, hthere, hok, if_false, if_true]
              constructor
              · rintro rfl
                exact ⟨trivial, .inr (.inr ⟨trivial, Nat.not_lt.1 hsize, rfl, hthere⟩)⟩
              · rintro ⟨-, ⟨hsome, -⟩ | ⟨hname, -⟩ | ⟨-, -, rfl, -⟩⟩
                · cases hsome
                · cases hname
                · rfl
            · simp only [hsize, hthere, if_false]
              constructor
              · intro hno
                cases hno
              · rintro ⟨-, ⟨hsome, -⟩ | ⟨hname, -⟩ | ⟨-, -, rfl, hsome⟩⟩
                · cases hsome
                · cases hname
                · exact absurd hsome hthere

/-- Nothing to say: one stays in the folder. -/
theorem step_nil (h : d.entry? l = some .folder) : d.step l [] = .ok l := by
  simp [step, h]

theorem step_name {n : String} (hn : IsName n) (hsize : n.utf8ByteSize ≤ maxNameLength)
    (hl : d.entry? l = some .folder) (hthere : (d.entry? (l ++ [n])).isSome) :
    d.step l n.toList = .ok (l ++ [n]) := by
  simp [step, hl, hn.ne_nil, hn.ne_dot, hn.ne_dots, Nat.not_lt.2 hsize, hthere]

/-- What lies above a folder is a folder. -/
theorem IsTree.folder_dropLast (hd : d.IsTree) (h : d.entry? l = some .folder) :
    d.entry? l.dropLast = some .folder := by
  rcases List.eq_nil_or_concat l with rfl | ⟨above, n, rfl⟩
  · exact h
  · rw [List.concat_eq_append] at h ⊢
    rw [List.dropLast_concat]
    exact hd.folder_above (by simp) (show (d.entry? (above ++ [n])).isSome by rw [h]; rfl)

/-! ## Ways -/

/-- Where a path leads, if its text has no flaw. -/
def walk (d : Disk) (p : Path) : Except DiskCause Location := p.segments.foldlM d.step (d.origin p)

theorem resolve_eq (d : Disk) (p : Path) :
    d.resolve p = match flaw? p with
      | some cause => .error cause
      | none => d.walk p := rfl

theorem walk_of_resolve (h : d.resolve p = .ok l) : flaw? p = none ∧ d.walk p = .ok l := by
  rw [resolve_eq] at h
  cases hflaw : flaw? p with
  | some cause => simp [hflaw] at h
  | none => exact ⟨rfl, by simpa [hflaw] using h⟩

theorem Alike.walk_eq (h : d.Alike e) (p : Path) : d.walk p = e.walk p := by
  unfold walk origin
  rw [h.step_eq, h.workDir]

theorem Alike.resolve_eq (h : d.Alike e) (p : Path) : d.resolve p = e.resolve p := by
  rw [Disk.resolve_eq, Disk.resolve_eq, h.walk_eq]

theorem foldlM_step_cons_iff {segment : List Char} {ss : List (List Char)} :
    (segment :: ss).foldlM d.step l = .ok k ↔
      ∃ m, d.step l segment = .ok m ∧ ss.foldlM d.step m = .ok k := by
  rw [List.foldlM_cons, bind_eq_ok_iff]

theorem foldlM_step_append_iff {ss ts : List (List Char)} :
    (ss ++ ts).foldlM d.step l = .ok k ↔
      ∃ m, ss.foldlM d.step l = .ok m ∧ ts.foldlM d.step m = .ok k := by
  rw [List.foldlM_append, bind_eq_ok_iff]

theorem foldlM_step_singleton (d : Disk) (l : Location) (segment : List Char) :
    [segment].foldlM d.step l = d.step l segment := by
  rw [List.foldlM_cons]
  cases d.step l segment <;> rfl

/-- A way whose segments say names goes down by these names. -/
theorem foldlM_step_names {ss : List (List Char)} {ns : List String}
    (h : ss.foldlM d.step l = .ok k)
    (hns : ss.filterMap Component.ofSegment? = ns.map .name) : k = l ++ ns := by
  induction ss generalizing l ns with
  | nil =>
    obtain rfl : ns = [] := by simpa using hns.symm
    rw [List.append_nil]
    exact (Except.ok.inj h).symm
  | cons segment ss ih =>
    obtain ⟨m, hstep, hrest⟩ := foldlM_step_cons_iff.1 h
    obtain ⟨-, ⟨hseg, rfl⟩ | ⟨hseg, rfl⟩ | ⟨hseg, -, rfl, -⟩⟩ := step_eq_ok_iff.1 hstep
    · rw [List.filterMap_cons_none hseg] at hns
      exact ih hrest hns
    · rw [List.filterMap_cons_some hseg] at hns
      cases ns <;> simp at hns
    · rw [List.filterMap_cons_some hseg] at hns
      cases ns with
      | nil => simp at hns
      | cons n ns =>
        obtain ⟨hn, hns⟩ := List.cons.inj hns
        rw [ih hrest hns, List.append_assoc, Component.name.inj hn]
        rfl

/-- The names below a location lead to what is there. -/
theorem IsTree.foldlM_step_down (hd : d.IsTree) {ns : List String}
    (h : (d.entry? (l ++ ns)).isSome) :
    (ns.map String.toList).foldlM d.step l = .ok (l ++ ns) := by
  induction ns generalizing l with
  | nil => rw [List.append_nil]; rfl
  | cons n ns ih =>
    have hnamed := hd.named_of_present h n (by simp)
    have hfolder := hd.folder_above (by simp) h
    have hbelow : (d.entry? (l ++ [n] ++ ns)).isSome := by simpa using h
    have hthere : (d.entry? (l ++ [n])).isSome := by
      by_cases hns : ns = []
      · simpa [hns] using hbelow
      · rw [hd.folder_above hns hbelow]
        rfl
    rw [List.map_cons, foldlM_step_cons_iff]
    refine ⟨_, step_name hnamed.1 hnamed.2 hfolder hthere, ?_⟩
    rw [ih hbelow, List.append_assoc]
    rfl

/-- Empty segments can be left out of a way. -/
theorem foldlM_step_filter {ss : List (List Char)} (h : ss.foldlM d.step l = .ok k) :
    (ss.filter (!·.isEmpty)).foldlM d.step l = .ok k := by
  induction ss generalizing l with
  | nil => exact h
  | cons segment ss ih =>
    obtain ⟨m, hstep, hrest⟩ := foldlM_step_cons_iff.1 h
    cases segment with
    | nil =>
      obtain ⟨hl, -⟩ := step_eq_ok_iff.1 hstep
      obtain rfl := Except.ok.inj ((step_nil hl).symm.trans hstep)
      exact ih hrest
    | cons x xs =>
      rw [List.filter_cons_of_pos (by simp), foldlM_step_cons_iff]
      exact ⟨m, hstep, ih hrest⟩

/-! ## Joined paths -/

/-- A slash at the end of a path can be left out. -/
theorem foldlM_stem (h : d.walk p = .ok l) :
    (p.stem.splitOn '/').foldlM d.step (d.origin p) = .ok l := by
  rw [walk] at h
  rcases p.segments_eq_stem with hseg | hseg
  · rwa [hseg] at h
  · rw [hseg, foldlM_step_append_iff] at h
    obtain ⟨m, hm, hlast⟩ := h
    rw [foldlM_step_singleton] at hlast
    obtain ⟨hfolder, -⟩ := step_eq_ok_iff.1 hlast
    rwa [Except.ok.inj ((step_nil hfolder).symm.trans hlast)] at hm

theorem walk_join (d : Disk) (hp : p.text ≠ "") (hq : q.isAbsolute = false) :
    d.walk (p.join q) =
      (p.stem.splitOn '/' ++ q.segments).foldlM d.step (d.origin p) := by
  rw [walk, Path.segments_join hp hq, origin, Path.isAbsolute_join hp hq]
  rfl

/-- A name joined to a path is one step further. -/
theorem walk_join_name {n : String} (hp : p.text ≠ "") (hn : IsName n) (h : d.walk p = .ok l)
    (hstep : d.step l n.toList = .ok k) : d.walk (p.join ⟨n⟩) = .ok k := by
  rw [walk_join d hp (Path.isAbsolute_name hn), Path.segments_name hn, foldlM_step_append_iff]
  exact ⟨l, foldlM_stem h, by rwa [foldlM_step_singleton]⟩

/-! ## Writing -/

/-- The last segment of a way to a file names it. -/
theorem IsTree.last_of_walk (hd : d.IsTree) (h : d.walk p = .ok l)
    (hfile : d.entry? l = some (.file c)) :
    ∃ before segment m, p.segments = before ++ [segment] ∧
      before.foldlM d.step (d.origin p) = .ok m ∧ d.step m segment = .ok l ∧
      d.entry? m = some .folder ∧
      Component.ofSegment? segment = some (.name (String.ofList segment)) := by
  have hne : p.segments ≠ [] := List.splitOn_ne_nil _ _
  have hsplit := List.dropLast_append_getLast hne
  rw [walk, ← hsplit, foldlM_step_append_iff] at h
  obtain ⟨m, hm, hlast⟩ := h
  rw [foldlM_step_singleton] at hlast
  refine ⟨_, _, m, hsplit.symm, hm, hlast, ?_⟩
  obtain ⟨hfolder, ⟨-, rfl⟩ | ⟨-, rfl⟩ | ⟨hname, -⟩⟩ := step_eq_ok_iff.1 hlast
  · simp [hfolder] at hfile
  · simp [hd.folder_dropLast hfolder] at hfile
  · exact ⟨hfolder, hname⟩

/-- A file that a path leads to is given the new content, and nothing else is
touched. -/
theorem IsTree.write_of_walk {c₀ : ByteArray} (hd : d.IsTree) (hflaw : flaw? p = none)
    (h : d.walk p = .ok l) (hfile : d.entry? l = some (.file c₀)) (c : ByteArray) :
    d.write p c = .ok (d.overwrite l c) := by
  obtain ⟨before, segment, m, hseg, hbefore, hstep, hfolder, hname⟩ := hd.last_of_walk h hfile
  have hsegment : segment ≠ [] ∧ segment ≠ ['.'] ∧ segment ≠ ['.', '.'] := by
    refine ⟨?_, ?_, ?_⟩ <;> rintro rfl <;> simp [Component.ofSegment?] at hname
  have hnamed : p.segments.filter (!·.isEmpty) = before.filter (!·.isEmpty) ++ [segment] := by
    rw [hseg, List.filter_append, List.filter_cons_of_pos (by simp [hsegment.1])]
    rfl
  have htarget : d.target p = .ok (m, some segment) := by
    rw [target, hflaw, hnamed]
    simp only [List.dropLast_concat, List.getLast?_concat, foldlM_step_filter hbefore,
      step_nil hfolder, bind, Except.bind]
    rfl
  have hslash : p.text.toList.getLast? ≠ some '/' := by
    intro hend
    obtain ⟨u, hu⟩ := List.getLast?_eq_some_iff.1 hend
    have hlast := congrArg List.getLast? hseg
    rw [Path.segments, hu, List.splitOn_append_cons_self] at hlast
    simp at hlast
    exact hsegment.1 hlast
  rw [write, htarget]
  show (if segment ∈ [['.'], ['.', '.']] ∨ p.text.toList.getLast? = some '/' then _ else _) = _
  rw [if_neg (by simp [hsegment, hslash]), hstep]
  simp only [hfile, Option.any_some, Entry.isFolder]
  rw [if_neg (by simp), put_of_file hd hfile]

/-! ## A disk that lacks a file -/

/-- `e` is `d` without what is at `l`. -/
structure Lacks (e d : Disk) (l : Location) : Prop where
  workDir : e.workDir = d.workDir
  entry : ∀ k, e.entry? k = if k = l then none else d.entry? k

theorem Lacks.entry_ne (h : e.Lacks d l) {x : Entry} (hk : e.entry? k = some x) : k ≠ l := by
  rintro rfl
  rw [h.entry, if_pos rfl] at hk
  cases hk

theorem Lacks.entry_eq (h : e.Lacks d l) (hk : k ≠ l) : e.entry? k = d.entry? k := by
  rw [h.entry, if_neg hk]

theorem IsTree.step_lacks_iff (hd : d.IsTree) (hfile : d.entry? l = some (.file c))
    (h : e.Lacks d l) {m : Location} {segment : List Char} :
    e.step m segment = .ok k ↔ d.step m segment = .ok k ∧ k ≠ l := by
  have hfolder : ∀ m, e.entry? m = some .folder ↔ d.entry? m = some .folder := by
    intro m
    by_cases hm : m = l
    · rw [h.entry, if_pos hm, hm, hfile]
      simp
    · rw [h.entry_eq hm]
  have hpresent : (e.entry? k).isSome ↔ (d.entry? k).isSome ∧ k ≠ l := by
    by_cases hk : k = l
    · rw [h.entry, if_pos hk]
      simp [hk]
    · rw [h.entry_eq hk]
      simp [hk]
  have hne : ∀ m, d.entry? m = some .folder → m ≠ l := by
    rintro m hm rfl
    rw [hfile] at hm
    cases hm
  rw [step_eq_ok_iff, step_eq_ok_iff, hfolder, hpresent]
  constructor
  · rintro ⟨hm, ⟨hseg, rfl⟩ | ⟨hseg, rfl⟩ | ⟨hseg, hsize, hk, hthere⟩⟩
    · exact ⟨⟨hm, .inl ⟨hseg, rfl⟩⟩, hne _ hm⟩
    · exact ⟨⟨hm, .inr (.inl ⟨hseg, rfl⟩)⟩, hne _ (hd.folder_dropLast hm)⟩
    · exact ⟨⟨hm, .inr (.inr ⟨hseg, hsize, hk, hthere.1⟩)⟩, hthere.2⟩
  · rintro ⟨⟨hm, hcases⟩, hk⟩
    refine ⟨hm, hcases.imp_right (.imp_right ?_)⟩
    rintro ⟨hseg, hsize, hbelow, hthere⟩
    exact ⟨hseg, hsize, hbelow, hthere, hk⟩

/-- The ways to a file that is not there any more are closed, and no others. -/
theorem IsTree.walk_lacks_iff (hd : d.IsTree) (hfile : d.entry? l = some (.file c))
    (h : e.Lacks d l) : e.walk p = .ok k ↔ d.walk p = .ok k ∧ k ≠ l := by
  have hway : ∀ (ss : List (List Char)) (m : Location), ss ≠ [] →
      (ss.foldlM e.step m = .ok k ↔ ss.foldlM d.step m = .ok k ∧ k ≠ l) := by
    intro ss
    induction ss with
    | nil => simp
    | cons segment ss ih =>
      intro m _
      by_cases hss : ss = []
      · rw [hss, foldlM_step_singleton, foldlM_step_singleton]
        exact hd.step_lacks_iff hfile h
      · simp only [foldlM_step_cons_iff, ih _ hss, hd.step_lacks_iff hfile h]
        constructor
        · rintro ⟨m', ⟨hstep, -⟩, hrest, hk⟩
          exact ⟨⟨m', hstep, hrest⟩, hk⟩
        · rintro ⟨⟨m', hstep, hrest⟩, hk⟩
          refine ⟨m', ⟨hstep, ?_⟩, hrest, hk⟩
          -- The way goes on from here, so this is no file.
          rintro rfl
          obtain ⟨segment', ss', rfl⟩ := List.exists_cons_of_ne_nil hss
          obtain ⟨_, hnext, -⟩ := foldlM_step_cons_iff.1 hrest
          have hfolder := (step_eq_ok_iff.1 hnext).1
          rw [hfile] at hfolder
          cases hfolder
  have horigin : e.origin p = d.origin p := by rw [origin, origin, h.workDir]
  rw [walk, walk, horigin]
  exact hway p.segments _ (List.splitOn_ne_nil _ _)

end Relocate.Disk
