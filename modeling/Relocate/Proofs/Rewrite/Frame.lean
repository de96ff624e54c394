import Mathlib.Data.List.Forall2
import Relocate.Proofs.Rewrite.Fixpoint

/-!
# What rewriting leaves alone

Rewriting puts new paths in the places of old ones. The new text is read
again as the old clauses with these paths in them, so the frame of a path can
be told: nothing between the paths changes, and no clause comes or goes.

`outsidePaths t` is what a text holds outside the paths of its clauses, in
stretches. With the paths put between them they are the text again
(`weave_outsidePaths`).

* `rewrite_frame`: rewriting keeps all that stands outside the paths, clause
  by clause, and changes a path exactly where the module it names is
  registered and can be reached.
* `rewrite_leaves_nothing_stale`: every path of the new text that could be
  put right is right.
-/
namespace Relocate

open Text

/-! ## Text outside the paths -/

namespace Text.Cursor

/-- The text from one place up to a later one. -/
def upTo (a b : Cursor) : List Char := a.ahead.take (b.behind.length - a.behind.length)

theorem upTo_move {a : Cursor} {u r : List Char} (h : a.ahead = u ++ r) :
    a.upTo (a.move u.length) = u := by
  simp [upTo, behind_move h, h]

end Text.Cursor

/-- What lies ahead of a place outside the paths of the sites there: up to the
first path, from each path to the next, and behind the last. -/
def outsideFrom (cursor : Cursor) : List Site → List (List Char)
  | [] => [cursor.ahead]
  | s :: ss => cursor.upTo s.pathStart :: outsideFrom s.pathStop ss

/-- What a text holds outside the paths of its clauses. -/
def outsidePaths (t : List Char) : List (List Char) := outsideFrom (Cursor.start t) (sites t)

/-- The stretches between the paths of a list of pieces, with `behind` before
the first piece. -/
def Piece.stretches (behind : List Char) : List Piece → List (List Char)
  | [] => [behind]
  | .plain t :: ps => stretches (behind ++ t) ps
  | .clause c :: ps => (behind ++ c.opening) :: stretches (c.ending.text c.quote) ps

theorem outsideFrom_sitesFrom (ps : List Piece) :
    ∀ (cursor : Cursor) (u : List Char), cursor.ahead = u ++ Piece.render ps →
      outsideFrom cursor (sitesFrom (cursor.move u.length) ps) = Piece.stretches u ps := by
  induction ps with
  | nil =>
    intro cursor u h
    simp only [Piece.render_nil, List.append_nil] at h
    simp [sitesFrom, outsideFrom, Piece.stretches, h]
  | cons p ps ih =>
    intro cursor u h
    cases p with
    | plain t =>
      have hahead : cursor.ahead = (u ++ t) ++ Piece.render ps := by
        simpa [Piece.text] using h
      have hmove : (cursor.move u.length).move t.length = cursor.move (u ++ t).length := by
        rw [Cursor.move_move, List.length_append]
      rw [sitesFrom, hmove, Piece.stretches, ih cursor (u ++ t) hahead]
    | clause c =>
      have hopen : cursor.ahead =
          (u ++ c.opening) ++ (c.path ++ c.ending.text c.quote ++ Piece.render ps) := by
        simpa [Piece.text, Clause.text, Clause.head] using h
      have hhead : cursor.ahead =
          (u ++ c.head) ++ (c.ending.text c.quote ++ Piece.render ps) := by
        simpa [Piece.text, Clause.text] using h
      have hstart : (⟨cursor.move u.length, c⟩ : Site).pathStart =
          cursor.move (u ++ c.opening).length := by
        rw [Site.pathStart, Cursor.move_move, List.length_append]
      have hstop : (⟨cursor.move u.length, c⟩ : Site).pathStop =
          cursor.move (u ++ c.head).length := by
        rw [Site.pathStop, Cursor.move_move, List.length_append]
      have hnext : (cursor.move u.length).move c.text.length =
          (cursor.move (u ++ c.head).length).move (c.ending.text c.quote).length := by
        simp only [Cursor.move_move, Clause.text, List.length_append]
        congr 1
        omega
      rw [sitesFrom, outsideFrom, hstart, hstop, Cursor.upTo_move hopen, hnext,
        ih _ _ (Cursor.ahead_move hhead), Piece.stretches]

theorem outsidePaths_eq (t : List Char) : outsidePaths t = Piece.stretches [] (scan t) :=
  outsideFrom_sitesFrom (scan t) (Cursor.start t) [] (render_scan t).symm

/-- Stretches with paths between them, in turn. -/
def weave : (stretches paths : List (List Char)) → List Char
  | [], _ => []
  | s :: ss, [] => s ++ weave ss []
  | s :: ss, p :: ps => s ++ p ++ weave ss ps

theorem weave_stretches (ps : List Piece) :
    ∀ (cursor : Cursor) (u : List Char),
      weave (Piece.stretches u ps) ((sitesFrom cursor ps).map (·.clause.path)) =
        u ++ Piece.render ps := by
  induction ps with
  | nil =>
    intro cursor u
    simp [Piece.stretches, sitesFrom, weave]
  | cons p ps ih =>
    intro cursor u
    cases p with
    | plain t =>
      rw [Piece.stretches, sitesFrom, ih]
      simp [Piece.text]
    | clause c =>
      rw [Piece.stretches, sitesFrom, List.map_cons, weave, ih]
      simp [Piece.text, Clause.text, Clause.head]

/-- The stretches of a text outside its paths, with the paths between them,
are the text. -/
theorem weave_outsidePaths (t : List Char) :
    weave (outsidePaths t) ((sites t).map (·.clause.path)) = t := by
  rw [outsidePaths_eq, sites, weave_stretches, List.nil_append, render_scan]

/-- New paths leave the stretches between them as they are. -/
theorem stretches_mapClause {f : Clause → Clause} (hf : ∀ c, ∃ path, f c = { c with path := path })
    (ps : List Piece) :
    ∀ u, Piece.stretches u (ps.map (Piece.mapClause f)) = Piece.stretches u ps := by
  induction ps with
  | nil => exact fun u => rfl
  | cons p ps ih =>
    intro u
    cases p with
    | plain t => exact ih (u ++ t)
    | clause c =>
      obtain ⟨path, hc⟩ := hf c
      simp only [List.map_cons, Piece.mapClause, Piece.stretches, ih, hc]
      rfl

/-- Clauses put in the places of others stand there in the same order. -/
theorem forall₂_sitesFrom_mapClause (f : Clause → Clause) (ps : List Piece) :
    ∀ a b : Cursor, List.Forall₂ (fun s s' : Site => s'.clause = f s.clause) (sitesFrom a ps)
      (sitesFrom b (ps.map (Piece.mapClause f))) := by
  induction ps with
  | nil => exact fun a b => .nil
  | cons p ps ih =>
    intro a b
    cases p with
    | plain t => exact ih _ _
    | clause c => exact .cons rfl (ih _ _)

/-! ## Rewritten clauses -/

namespace Engine

variable {e : Engine} {folder : Path} {c : Clause} {path : String}

/-- The clause is an import that closes as it should, its module has a home,
and `path` names the module from `folder` in the style that the policy asks
for, with the import's own extension. -/
def Resolves (e : Engine) (folder : Path) (c : Clause) (path : String) : Prop :=
  ∃ i home resolved, Import.ofClause? e.layout folder c = some i ∧ i.style ≠ .malformed ∧
    e.registry.home? i.name = some home ∧
    e.layout.canonical? home i.name folder (e.targetStyle folder i.style) = some resolved ∧
    path = i.withExtension resolved

theorem resolves_iff : e.Resolves folder c path ↔ ∃ i, e.target? folder c = some (i, path) := by
  constructor
  · rintro ⟨i, home, resolved, hi, hstyle, hhome, hresolved, hpath⟩
    have hcanonical := canonical?_eq_some_iff.2 ⟨home, resolved, hhome, hresolved, hpath⟩
    refine ⟨i, Option.bind_eq_some_iff.2 ⟨i, hi, ?_⟩⟩
    rw [if_neg hstyle]
    exact Option.bind_eq_some_iff.2 ⟨path, hcanonical, rfl⟩
  · rintro ⟨i, h⟩
    obtain ⟨j, hj, h⟩ := Option.bind_eq_some_iff.1 h
    split at h
    · cases h
    rename_i hstyle
    obtain ⟨p, hp, h⟩ := Option.bind_eq_some_iff.1 h
    cases h
    obtain ⟨home, resolved, hhome, hresolved, hpath⟩ := canonical?_eq_some_iff.1 hp
    exact ⟨i, home, resolved, hj, hstyle, hhome, hresolved, hpath⟩

theorem retarget_of_resolves (h : e.Resolves folder c path) :
    e.retarget folder c = { c with path := path.toList } := by
  obtain ⟨i, hi⟩ := resolves_iff.1 h
  exact retarget_of_some hi

theorem retarget_of_not_resolves (h : ∀ path, ¬ e.Resolves folder c path) :
    e.retarget folder c = c := by
  apply retarget_of_none
  cases ht : e.target? folder c with
  | none => rfl
  | some p => exact absurd (resolves_iff.2 ⟨p.1, ht⟩) (h p.2)

theorem exists_retarget_eq (e : Engine) (folder : Path) (c : Clause) :
    ∃ path, e.retarget folder c = { c with path := path } := by
  by_cases h : ∃ path, e.Resolves folder c path
  · obtain ⟨path, h⟩ := h
    exact ⟨path.toList, retarget_of_resolves h⟩
  · exact ⟨c.path, retarget_of_not_resolves (not_exists.1 h)⟩

/-- The sites of the rewritten text are those of the repaired text with their
paths put right. -/
theorem Legible.forall₂_sites (hs : e.Legible) (t : String) (folder : Path) :
    List.Forall₂ (fun s s' : Site => s'.clause = e.retarget folder s.clause)
      (sites (e.layout.repair t).text.toList) (sites (e.rewrite t folder).text.toList) := by
  rw [sites, sites, hs.scan_rewrite t folder]
  exact forall₂_sitesFrom_mapClause _ _ _ _

/-- Rewriting changes nothing of the repaired text but paths: the new text is
what stands outside the paths of the repaired one, with the new paths between.
The clauses stay, in their order, with their quotes and endings. A path becomes
the canonical one of its module where there is one; every other clause stays
as it is, letter by letter. -/
theorem rewrite_frame (e : Engine) (hs : e.Legible) (t : String) (folder : Path) :
    outsidePaths (e.rewrite t folder).text.toList =
      outsidePaths (e.layout.repair t).text.toList ∧
    (e.rewrite t folder).text.toList = weave (outsidePaths (e.layout.repair t).text.toList)
      ((sites (e.rewrite t folder).text.toList).map (·.clause.path)) ∧
    List.Forall₂ (fun s s' : Site =>
        s'.clause.gap = s.clause.gap ∧ s'.clause.quote = s.clause.quote ∧
        s'.clause.ending = s.clause.ending ∧
        (∀ path, e.Resolves folder s.clause path → s'.clause.path = path.toList) ∧
        ((∀ path, ¬ e.Resolves folder s.clause path) → s'.clause = s.clause))
      (sites (e.layout.repair t).text.toList) (sites (e.rewrite t folder).text.toList) := by
  have hframe : outsidePaths (e.rewrite t folder).text.toList =
      outsidePaths (e.layout.repair t).text.toList := by
    rw [outsidePaths_eq, outsidePaths_eq, hs.scan_rewrite t folder]
    exact stretches_mapClause (e.exists_retarget_eq folder) _ []
  refine ⟨hframe, ?_, (hs.forall₂_sites t folder).imp ?_⟩
  · rw [← hframe, weave_outsidePaths]
  · intro s s' hclause
    rw [hclause]
    obtain ⟨path, hpath⟩ := e.exists_retarget_eq folder s.clause
    refine ⟨by rw [hpath], by rw [hpath], by rw [hpath], ?_, retarget_of_not_resolves⟩
    intro path h
    rw [retarget_of_resolves h]

/-- One path changes. The literal behind it that gets its closing quote, the
unknown module and the literal that ends late keep their places. -/
theorem rewrite_frame_button :
    ∃ e : Engine, e.Legible ∧
      (e.layout.repair "from './Button'; from \"./Card\nfrom './x' y'").text =
        "from './Button'; from \"./Card\"\nfrom './x' y'" ∧
      (e.rewrite "from './Button'; from \"./Card\nfrom './x' y'" ⟨"src/components/forms"⟩).text =
        "from '../common/Button'; from \"./Card\"\nfrom './x' y'" ∧
      outsidePaths "from '../common/Button'; from \"./Card\"\nfrom './x' y'".toList =
        outsidePaths "from './Button'; from \"./Card\"\nfrom './x' y'".toList := by
  have hs : (⟨⟨[("Button", "common")]⟩, {}, .preserve⟩ : Engine).Legible :=
    ⟨by decide, by decide⟩
  have hrepaired : ((⟨⟨[("Button", "common")]⟩, {}, .preserve⟩ : Engine).layout.repair
      "from './Button'; from \"./Card\nfrom './x' y'").text =
        "from './Button'; from \"./Card\"\nfrom './x' y'" := by decide +kernel
  have hwritten : ((⟨⟨[("Button", "common")]⟩, {}, .preserve⟩ : Engine).rewrite
      "from './Button'; from \"./Card\nfrom './x' y'" ⟨"src/components/forms"⟩).text =
        "from '../common/Button'; from \"./Card\"\nfrom './x' y'" := by decide +kernel
  have hframe := (rewrite_frame _ hs "from './Button'; from \"./Card\nfrom './x' y'"
    ⟨"src/components/forms"⟩).1
  rw [hrepaired, hwritten] at hframe
  exact ⟨_, hs, hrepaired, hwritten, hframe⟩

/-- Whatever the text, and however broken its literals: no clause gets lost,
and where the rewritten text names a registered module that can be reached,
it does so by the canonical path. -/
theorem rewrite_leaves_nothing_stale (e : Engine) (hs : e.Spells) (t : String) (folder : Path) :
    (sites (e.rewrite t folder).text.toList).length =
      (sites (e.layout.repair t).text.toList).length ∧
    ∀ s ∈ sites (e.rewrite t folder).text.toList, ∀ path,
      e.Resolves folder s.clause path → s.clause.path = path.toList := by
  refine ⟨(hs.legible.forall₂_sites t folder).length_eq.symm, ?_⟩
  intro s hmem path h
  have hclause := clause_mem_scan_iff.2 ⟨s, hmem, rfl⟩
  rw [scan_rewrite_text hs] at hclause
  obtain ⟨c, -, hc⟩ := clause_mem_mapClause hclause
  obtain ⟨i, hi⟩ := resolves_iff.1 h
  rw [hc] at hi ⊢
  exact (fixed_retarget hs folder c i path hi).symm

/-- The path of a literal that was broken is put right as well. -/
theorem rewrite_leaves_nothing_stale_button :
    ∃ e : Engine, e.Spells ∧
      (e.rewrite "from '../x/Button.tsx\";" ⟨"src/components/forms"⟩).text =
        "from '../common/Button.tsx';" ∧
      ∃ s ∈ sites "from '../common/Button.tsx';".toList,
        e.Resolves ⟨"src/components/forms"⟩ s.clause "../common/Button.tsx" ∧
        s.clause.path = "../common/Button.tsx".toList := by
  have hs : (⟨⟨[("Button", "common")]⟩, {}, .preserve⟩ : Engine).Spells :=
    ⟨by decide, by decide, by decide, by decide⟩
  have htext : ((⟨⟨[("Button", "common")]⟩, {}, .preserve⟩ : Engine).rewrite
      "from '../x/Button.tsx\";" ⟨"src/components/forms"⟩).text =
        "from '../common/Button.tsx';" := by decide +kernel
  have hclause : Piece.clause ⟨[' '], .single, "../common/Button.tsx".toList, .matched⟩ ∈
      scan "from '../common/Button.tsx';".toList := by decide +kernel
  obtain ⟨s, hmem, hc⟩ := clause_mem_scan_iff.1 hclause
  have hresolves : (⟨⟨[("Button", "common")]⟩, {}, .preserve⟩ : Engine).Resolves
      ⟨"src/components/forms"⟩ s.clause "../common/Button.tsx" := by
    rw [hc]
    exact ⟨⟨.otherFolder, "Button", some "tsx"⟩, "common", "../common/Button",
      by decide +kernel, by decide, by decide, by decide +kernel, by decide⟩
  have hfresh := (rewrite_leaves_nothing_stale _ hs "from '../x/Button.tsx\";"
    ⟨"src/components/forms"⟩).2 s
  rw [htext] at hfresh
  exact ⟨_, hs, htext, s, hmem, hresolves, hfresh hmem _ hresolves⟩

end Engine

end Relocate
