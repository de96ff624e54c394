import Relocate.Proofs.Disk.Walk
import Relocate.Proofs.Path.Plain
import Relocate.Proofs.Text.Split

/-!
# What is written is there

A path can be written to when it names something in a folder that is there, and
that something is no folder (`Place`). `write_eq_ok_iff` says all that writing
does: it goes through exactly in such a place, whatever the content, and puts a
file there. No other entry changes its kind, so the way to the file stays open
(`keeps_put`).

* `fileAt?_of_write`: what is written to a path is then read from it.
* `ensureFolder_of_isFolder`: a folder that is there is not made again.
* `place_join_name`: a name in a folder can be written to.
-/
namespace Relocate.Disk

variable {d e : Disk} {l k m : Location} {p : Path} {c : ByteArray} {a : Entry}

/-! ## Entries -/

theorem lookup_cons_eq {α : Type} (m k : Location) (b : α) (rows : List (Location × α)) :
    ((m, b) :: rows).lookup k = if k = m then some b else rows.lookup k := by
  by_cases h : k = m
  · simp [h]
  · rw [List.lookup_cons, beq_false_of_ne h, if_neg h]

theorem lookup_replace {α : Type} (l k : Location) (a : α) (rows : List (Location × α)) :
    (rows.map fun old => if old.1 = l then (l, a) else old).lookup k =
      if k = l then (rows.lookup l).map fun _ => a else rows.lookup k := by
  induction rows with
  | nil => simp
  | cons row rows ih =>
    obtain ⟨m, b⟩ := row
    rw [List.map_cons, lookup_cons_eq, lookup_cons_eq]
    by_cases hm : m = l
    · subst hm
      rw [if_pos rfl, lookup_cons_eq, if_pos rfl, ih]
      by_cases hk : k = m <;> simp [hk]
    · rw [if_neg hm, lookup_cons_eq, if_neg (Ne.symm hm), ih]
      by_cases hk : k = l
      · rw [if_pos hk, if_pos hk, if_neg fun e => hm (e.symm.trans hk)]
      · rw [if_neg hk, if_neg hk]

theorem lookup_put (d : Disk) (l k : Location) (a : Entry) :
    (d.put l a).entries.lookup k = if k = l then some a else d.entries.lookup k := by
  unfold put
  split
  · rename_i hlisted
    rw [lookup_replace]
    obtain ⟨b, hb⟩ := Option.isSome_iff_exists.1 hlisted
    rw [hb, Option.map_some]
  · rename_i hlisted
    rw [Bool.not_eq_true, Option.isSome_eq_false_iff, Option.isNone_iff_eq_none] at hlisted
    by_cases hk : k = l
    · simp [List.lookup_append, hk, hlisted]
    · simp [List.lookup_append, lookup_cons_eq, hk]

theorem workDir_put (d : Disk) (l : Location) (a : Entry) : (d.put l a).workDir = d.workDir := by
  unfold put
  split <;> rfl

theorem exists_mem_put {x : Location × Entry} (hx : x ∈ d.entries) (l : Location) (a : Entry) :
    ∃ y ∈ (d.put l a).entries, y.1 = x.1 := by
  unfold put
  split
  · refine ⟨_, List.mem_map_of_mem hx, ?_⟩
    split <;> simp_all
  · exact ⟨x, List.mem_append_left _ hx, rfl⟩

theorem entry?_put_self (d : Disk) (l : Location) (a : Entry) : entry? (d.put l a) l = some a := by
  simp [ entry?, lookup_put]

theorem isSome_put (h : (d.entry? k).isSome) (l : Location) (a : Entry) :
    (Disk.entry? (d.put l a) k).isSome := by
  rw [present_iff] at h ⊢
  refine h.imp_right fun ⟨x, hx, hpre⟩ => ?_
  obtain ⟨y, hy, hsame⟩ := exists_mem_put hx l a
  exact ⟨y, hy, hsame ▸ hpre⟩

/-- A folder stays one as long as nothing is put in its place. -/
theorem folder_put (h : d.entry? k = some .folder) (hk : k ≠ l) (a : Entry) :
    entry? (d.put l a) k = some .folder := by
  have hthere := isSome_put (by rw [h]; rfl) l a
  unfold entry? at h hthere ⊢
  rw [lookup_put, if_neg hk] at hthere ⊢
  cases hlook : d.entries.lookup k with
  | some b => simpa [hlook] using h
  | none => simp_all

/-! ## Ways -/

/-- Everything in `d` is in `e`, and what is a folder in `d` is one in `e`. -/
structure Keeps (e d : Disk) : Prop where
  present : ∀ k, (d.entry? k).isSome → (e.entry? k).isSome
  folder : ∀ k, d.entry? k = some .folder → e.entry? k = some .folder

/-- Every step that there was is still there. -/
theorem Keeps.step_eq (h : e.Keeps d) {segment : List Char} (hstep : d.step k segment = .ok m) :
    e.step k segment = .ok m := by
  rw [step_eq_ok_iff] at hstep ⊢
  obtain ⟨hfolder, hcases⟩ := hstep
  refine ⟨h.folder k hfolder, hcases.imp_right (Or.imp_right ?_)⟩
  rintro ⟨hname, hsize, hm, hthere⟩
  exact ⟨hname, hsize, hm, h.present m hthere⟩

theorem Keeps.foldlM_step_eq (h : e.Keeps d) {ss : List (List Char)}
    (hway : ss.foldlM d.step k = .ok m) : ss.foldlM e.step k = .ok m := by
  induction ss generalizing k with
  | nil => exact hway
  | cons segment ss ih =>
    obtain ⟨n, hstep, hrest⟩ := foldlM_step_cons_iff.1 hway
    exact foldlM_step_cons_iff.2 ⟨n, h.step_eq hstep, ih hrest⟩

/-- What is put where no folder is leaves the ways open. -/
theorem keeps_put (hl : d.entry? l ≠ some .folder) (a : Entry) : (d.put l a).Keeps d where
  present _ hthere := isSome_put hthere l a
  folder _ hfolder := folder_put hfolder (by rintro rfl; exact hl hfolder) a

theorem step_unsaid {segment : List Char} (hsegment : Component.ofSegment? segment = none)
    (h : d.step l segment = .ok k) : d.entry? l = some .folder ∧ k = l := by
  obtain ⟨hfolder, ⟨-, rfl⟩ | ⟨hup, -⟩ | ⟨hname, -⟩⟩ := step_eq_ok_iff.1 h
  · exact ⟨hfolder, rfl⟩
  · simp [hsegment] at hup
  · simp [hsegment] at hname

/-- Segments that say nothing can be left out of a way. -/
theorem foldlM_said {ss : List (List Char)} (h : ss.foldlM d.step l = .ok k) :
    (said ss).foldlM d.step l = .ok k := by
  induction ss generalizing l with
  | nil => exact h
  | cons segment ss ih =>
    obtain ⟨m, hstep, hrest⟩ := foldlM_step_cons_iff.1 h
    rw [said, List.filter_cons]
    split
    · exact foldlM_step_cons_iff.2 ⟨m, hstep, ih hrest⟩
    · rename_i hunsaid
      obtain ⟨-, rfl⟩ := step_unsaid (by simpa using hunsaid) hstep
      exact ih hrest

/-- They can be put back into a way that ends in a folder. -/
theorem foldlM_of_said {ss : List (List Char)} (h : (said ss).foldlM d.step l = .ok k)
    (hk : d.entry? k = some .folder) : ss.foldlM d.step l = .ok k := by
  induction ss generalizing l with
  | nil => exact h
  | cons segment ss ih =>
    rw [said, List.filter_cons] at h
    split at h
    · obtain ⟨m, hstep, hrest⟩ := foldlM_step_cons_iff.1 h
      exact foldlM_step_cons_iff.2 ⟨m, hstep, ih hrest⟩
    · rename_i hunsaid
      have hrest := ih h
      have hl : d.entry? l = some .folder := by
        cases ss with
        | nil =>
          obtain rfl : l = k := Except.ok.inj hrest
          exact hk
        | cons next ss =>
          obtain ⟨m, hstep, -⟩ := foldlM_step_cons_iff.1 hrest
          exact (step_eq_ok_iff.1 hstep).1
      have hstay : d.step l segment = .ok l :=
        step_eq_ok_iff.2 ⟨hl, .inl ⟨by simpa using hunsaid, rfl⟩⟩
      exact foldlM_step_cons_iff.2 ⟨l, hstay, hrest⟩

/-- Ways that say the same lead to the same folder. -/
theorem foldlM_congr_said {ss ts : List (List Char)} (hsaid : said ss = said ts)
    (h : ss.foldlM d.step l = .ok k) (hk : d.entry? k = some .folder) :
    ts.foldlM d.step l = .ok k :=
  foldlM_of_said (hsaid ▸ foldlM_said h) hk

/-! ## Writing -/

/-- The segments of a path that are not empty. -/
def named (p : Path) : List (List Char) := p.segments.filter (!·.isEmpty)

theorem target_eq (hflaw : flaw? p = none) :
    d.target p = (named p).dropLast.foldlM d.step (d.origin p) >>= fun k =>
      d.step k [] >>= fun m => .ok (m, (named p).getLast?) := by
  rw [target, hflaw]
  rfl

theorem target_eq_ok_iff {name? : Option (List Char)} :
    d.target p = .ok (l, name?) ↔ flaw? p = none ∧
      (named p).dropLast.foldlM d.step (d.origin p) = .ok l ∧ d.entry? l = some .folder ∧
      (named p).getLast? = name? := by
  cases hflaw : flaw? p with
  | some cause => simp [target, hflaw, bind, Except.bind, throw, throwThe, MonadExceptOf.throw]
  | none =>
    rw [target_eq hflaw, bind_eq_ok_iff]
    constructor
    · rintro ⟨k, hway, hrest⟩
      obtain ⟨m, hstep, heq⟩ := bind_eq_ok_iff.1 hrest
      obtain ⟨hfolder, rfl⟩ := step_unsaid rfl hstep
      obtain ⟨rfl, hlast⟩ := Prod.mk.inj (Except.ok.inj heq)
      exact ⟨rfl, hway, hfolder, hlast⟩
    · rintro ⟨-, hway, hfolder, hlast⟩
      exact ⟨l, hway, bind_eq_ok_iff.2 ⟨l, step_nil hfolder, by rw [hlast]⟩⟩

/-- A path that names something in the folder at `l`, which can be written to:
it is no folder. -/
structure Place (d : Disk) (p : Path) (l : Location) (name : List Char) : Prop where
  flawless : flaw? p = none
  way : (named p).dropLast.foldlM d.step (d.origin p) = .ok l
  folder : d.entry? l = some .folder
  last : (named p).getLast? = some name
  proper : name ∉ [['.'], ['.', '.']]
  noSlash : p.text.toList.getLast? ≠ some '/'
  short : (String.ofList name).utf8ByteSize ≤ maxNameLength
  free : d.entry? (l ++ [String.ofList name]) ≠ some .folder

/-- A step to a name from a folder. -/
theorem step_named {name : List Char} (hfolder : d.entry? l = some .folder) (hne : name ≠ [])
    (hproper : name ∉ [['.'], ['.', '.']]) :
    d.step l name =
      if maxNameLength < (String.ofList name).utf8ByteSize then .error .nameTooLong
      else if (d.entry? (l ++ [String.ofList name])).isSome then .ok (l ++ [String.ofList name])
      else .error .notFound := by
  simp only [List.mem_cons, List.not_mem_nil, or_false, not_or] at hproper
  simp [step, hfolder, hne, hproper]

theorem ne_nil_of_getLast?_named {name : List Char} (h : (named p).getLast? = some name) :
    name ≠ [] := by
  have hmem := List.mem_of_getLast? h
  rw [named, List.mem_filter] at hmem
  simpa using hmem.2

/-- Everything that writing can do. -/
theorem write_eq_ok_iff : d.write p c = .ok e ↔
    ∃ l name, d.Place p l name ∧ e = d.put (l ++ [String.ofList name]) (.file c) := by
  rw [write, bind_eq_ok_iff]
  constructor
  · rintro ⟨⟨l, name?⟩, htarget, hwrite⟩
    obtain ⟨hflaw, hway, hfolder, hlast⟩ := target_eq_ok_iff.1 htarget
    cases name? with
    | none => simp at hwrite
    | some name =>
      have hne := ne_nil_of_getLast?_named hlast
      simp only at hwrite
      split at hwrite
      · simp at hwrite
      · rename_i hproper
        obtain ⟨hproper, hslash⟩ := not_or.1 hproper
        rw [step_named hfolder hne hproper] at hwrite
        by_cases hlong : maxNameLength < (String.ofList name).utf8ByteSize
        · simp [hlong] at hwrite
        · rw [if_neg hlong] at hwrite
          have hdone : d.entry? (l ++ [String.ofList name]) ≠ some .folder ∧
              e = d.put (l ++ [String.ofList name]) (.file c) := by
            cases hentry : d.entry? (l ++ [String.ofList name]) with
            | none => simpa [hentry, eq_comm] using hwrite
            | some a => cases a <;> simp_all [Entry.isFolder]
          exact ⟨l, name, ⟨hflaw, hway, hfolder, hlast, hproper, hslash, Nat.not_lt.1 hlong,
            hdone.1⟩, hdone.2⟩
  · rintro ⟨l, name, hplace, rfl⟩
    have htarget := target_eq_ok_iff.2
      ⟨hplace.flawless, hplace.way, hplace.folder, hplace.last⟩
    refine ⟨_, htarget, ?_⟩
    have hne := ne_nil_of_getLast?_named hplace.last
    simp only
    rw [if_neg (not_or.2 ⟨hplace.proper, hplace.noSlash⟩),
      step_named hplace.folder hne hplace.proper, if_neg (Nat.not_lt.2 hplace.short)]
    have hfree := hplace.free
    cases hentry : d.entry? (l ++ [String.ofList name]) with
    | none => simp
    | some a =>
      cases a with
      | folder => exact absurd hentry hfree
      | file => simp [hentry, Entry.isFolder]

/-! ## Reading back -/

/-- The last segment of a path that does not end with a slash is not empty. -/
theorem exists_segments_concat (hne : named p ≠ []) (hslash : p.text.toList.getLast? ≠ some '/') :
    ∃ before s, p.segments = before ++ [s] ∧ s ≠ [] := by
  obtain ⟨before, hsegments⟩ :=
    List.getLast?_eq_some_iff.1 (Text.getLast?_splitOn '/' p.text.toList)
  refine ⟨before, _, hsegments, ?_⟩
  rcases List.eq_nil_or_concat p.text.toList with hnil | ⟨u, x, hx⟩
  · exact absurd (by simp [named, Path.segments, hnil]) hne
  · rw [List.concat_eq_append] at hx
    have hother : '/' ∉ [x] := by
      intro hmem
      rw [List.mem_singleton] at hmem
      exact hslash (by simp [hx, ← hmem])
    rw [hx, Text.afterLast_append hother]
    simp

theorem resolve_of_place {name : List Char} (h : d.Place p l name) (c : ByteArray) :
    (d.put (l ++ [String.ofList name]) (.file c)).resolve p = .ok (l ++ [String.ofList name]) := by
  have hnamed : named p ≠ [] := by
    intro hnil
    simpa [hnil] using h.last
  obtain ⟨before, s, hsegments, hs⟩ := exists_segments_concat hnamed h.noSlash
  have hnamed : named p = before.filter (!·.isEmpty) ++ [s] := by
    rw [named, hsegments, List.filter_append, List.filter_cons_of_pos (by simp [hs])]
    rfl
  have hway := h.way
  rw [hnamed, List.dropLast_concat] at hway
  obtain rfl : s = name := by simpa [hnamed] using h.last
  have hbefore : before.foldlM d.step (d.origin p) = .ok l :=
    foldlM_congr_said (said_filter before) hway h.folder
  have hlast : (d.put (l ++ [String.ofList s]) (.file c)).step l s =
      .ok (l ++ [String.ofList s]) := by
    have hfolder := folder_put h.folder (show l ≠ l ++ [String.ofList s] by simp) (.file c)
    rw [step_named hfolder hs h.proper, if_neg (Nat.not_lt.2 h.short), entry?_put_self]
    rfl
  have horigin : (d.put (l ++ [String.ofList s]) (.file c)).origin p = d.origin p := by
    rw [origin, workDir_put, origin]
  rw [resolve_eq, h.flawless]
  show walk _ p = _
  rw [walk, hsegments, horigin, foldlM_step_append_iff]
  exact ⟨l, (keeps_put h.free _).foldlM_step_eq hbefore, by rw [foldlM_step_singleton, hlast]⟩

/-- What is written to a path is then read from it. -/
theorem fileAt?_of_write (h : d.write p c = .ok e) : e.fileAt? p = some c := by
  obtain ⟨l, name, hplace, rfl⟩ := write_eq_ok_iff.1 h
  simp [fileAt?, resolve_of_place hplace, content?, entry?_put_self]

theorem has_of_fileAt? (h : d.fileAt? p = some c) : d.has p := by
  unfold fileAt? at h
  split at h
  · simp [has, *, Except.isOk, Except.toBool]
  · cases h

/-- A file that is here is not searched for further up. -/
theorem searchFile?_of_fileAt? (h : d.fileAt? p = some c) : d.searchFile? p = some c := by
  have hhere : d.ancestors = d.workDir :: ((List.range d.workDir.length).reverse.map fun n =>
      d.workDir.take n) := by
    simp [ancestors, List.range_succ]
  rw [searchFile?, hhere, List.findSome?_cons, h]

/-! ## Folders that are there -/

theorem exists_resolve_of_isFolder (h : d.isFolder p) :
    ∃ l, d.resolve p = .ok l ∧ d.entry? l = some .folder := by
  unfold isFolder at h
  split at h
  · rename_i l hl
    refine ⟨l, hl, ?_⟩
    cases hentry : d.entry? l with
    | none => simp [hentry] at h
    | some a => cases a <;> simp_all [Entry.isFolder]
  · cases h

theorem flaw?_eq_none_iff : flaw? p = none ↔
    p.text ≠ "" ∧ '\x00' ∉ p.text.toList ∧ p.text.utf8ByteSize ≤ maxPathLength := by
  unfold flaw?
  by_cases hnil : p.text = ""
  · simp [hnil]
  · by_cases hnul : '\x00' ∈ p.text.toList
    · simp [hnil, hnul]
    · simp [hnil, hnul]

/-- Some of the characters of a path are flawless if the path is. -/
theorem flaw?_of_sublist {q : Path} (hsub : q.text.toList.Sublist p.text.toList) (hq : q.text ≠ "")
    (h : flaw? p = none) : flaw? q = none := by
  obtain ⟨-, hnul, hsize⟩ := flaw?_eq_none_iff.1 h
  refine flaw?_eq_none_iff.2 ⟨hq, fun hmem => hnul (hsub.subset hmem), Nat.le_trans ?_ hsize⟩
  rw [Bytes.utf8ByteSize_eq, Bytes.utf8ByteSize_eq]
  exact byteLength_le_of_sublist hsub

theorem flaw?_plain (h : flaw? p = none) : flaw? p.plain = none :=
  have hp := (flaw?_eq_none_iff.1 h).1
  flaw?_of_sublist (Path.plain_sublist hp) (Path.text_plain_ne hp) h

/-- Nothing is made where something is. -/
theorem makeFolder_of_resolve (h : d.resolve p = .ok l) : d.makeFolder p ≠ .ok e := by
  intro hmake
  obtain ⟨-, hwalk⟩ := walk_of_resolve h
  obtain ⟨⟨k, name?⟩, htarget, hrest⟩ := bind_eq_ok_iff.1 hmake
  obtain ⟨-, hway, -, hlast⟩ := target_eq_ok_iff.1 htarget
  cases name? with
  | none => simp at hrest
  | some name =>
    obtain ⟨before, hbefore⟩ := List.getLast?_eq_some_iff.1 hlast
    have hfold := foldlM_step_filter hwalk
    rw [show p.segments.filter (!·.isEmpty) = before ++ [name] from hbefore,
      foldlM_step_append_iff] at hfold
    obtain ⟨m, hm, hstep⟩ := hfold
    rw [hbefore, List.dropLast_concat] at hway
    obtain rfl : m = k := Except.ok.inj (hm.symm.trans hway)
    rw [foldlM_step_singleton] at hstep
    simp only [hstep] at hrest
    split at hrest <;> simp at hrest

theorem ensureFolder_of_isFolder (h : d.isFolder p) : d.ensureFolder p = .ok d := by
  obtain ⟨l, hresolve, -⟩ := exists_resolve_of_isFolder h
  unfold ensureFolder
  split
  · rename_i hmake
    exact absurd hmake (makeFolder_of_resolve hresolve)
  · rw [if_pos h]

/-! ## Names in folders -/

theorem named_join_name (p : Path) {n : String} (hn : IsName n) :
    named (p.join ⟨n⟩) = named p ++ [n.toList] := by
  have hname : [n.toList].filter (!·.isEmpty) = [n.toList] := by simp [hn.ne_nil]
  by_cases hp : p.text = ""
  · obtain rfl : p = ⟨""⟩ := congrArg Path.mk hp
    rw [show Path.join ⟨""⟩ ⟨n⟩ = ⟨n⟩ by simp [Path.join, Path.isAbsolute_name hn], named,
      Path.segments_name hn, hname]
    rfl
  · have hjoin := Path.segments_join hp (Path.isAbsolute_name hn)
    rw [named, hjoin, Path.segments_name hn, List.filter_append, hname, named]
    rcases p.segments_eq_stem with h | h <;> simp [h]

theorem origin_join_name (d : Disk) (p : Path) {n : String} (hn : IsName n) :
    d.origin (p.join ⟨n⟩) = d.origin p := by
  have habs := Path.isAbsolute_name hn
  by_cases hp : p.text = ""
  · obtain rfl : p = ⟨""⟩ := congrArg Path.mk hp
    rw [show Path.join ⟨""⟩ ⟨n⟩ = ⟨n⟩ by simp [Path.join, habs], origin, habs]
    rfl
  · rw [origin, Path.isAbsolute_join hp habs, origin]

/-- A name in a folder can be written to, unless it is a folder itself. -/
theorem place_join_name {n : String} (hn : IsName n) (hshort : n.utf8ByteSize ≤ maxNameLength)
    (hwalk : d.walk p = .ok l) (hfolder : d.entry? l = some .folder)
    (hflaw : flaw? (p.join ⟨n⟩) = none) (hfree : d.entry? (l ++ [n]) ≠ some .folder) :
    d.Place (p.join ⟨n⟩) l n.toList := by
  refine ⟨hflaw, ?_, hfolder, ?_, ?_, ?_, ?_, ?_⟩
  · rw [named_join_name p hn, List.dropLast_concat, origin_join_name d p hn]
    exact foldlM_step_filter hwalk
  · rw [named_join_name p hn, List.getLast?_concat]
  · simp [hn.ne_dot, hn.ne_dots]
  · intro hslash
    obtain ⟨x, hx⟩ := Option.isSome_iff_exists.1 (List.getLast?_isSome.2 hn.ne_nil)
    have hlast : (p.join ⟨n⟩).text.toList.getLast? = some x := by
      unfold Path.join
      rw [Path.isAbsolute_name hn, if_neg (by simp)]
      split <;> simp [List.getLast?_append, List.getLast?_cons, hx]
    obtain rfl : x = '/' := Option.some.inj (hlast.symm.trans hslash)
    exact hn.noSlash (List.mem_of_getLast? hx)
  · simpa using hshort
  · simpa using hfree

/-- A path to a folder leads on to the folders in it. -/
theorem isFolder_join_name {n : String} (hn : IsName n) (hshort : n.utf8ByteSize ≤ maxNameLength)
    (hp : p.text ≠ "") (hwalk : d.walk p = .ok l) (hfolder : d.entry? l = some .folder)
    (hflaw : flaw? (p.join ⟨n⟩) = none) (hbelow : d.entry? (l ++ [n]) = some .folder) :
    d.isFolder (p.join ⟨n⟩) := by
  have hstep := step_name hn hshort hfolder (by rw [hbelow]; rfl)
  have hjoin := walk_join_name hp hn hwalk hstep
  simp [isFolder, resolve_eq, hflaw, hjoin, hbelow, Entry.isFolder]

end Relocate.Disk
