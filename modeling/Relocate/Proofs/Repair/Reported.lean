import Mathlib.Data.List.Forall2
import Relocate.Proofs.Bytes.Tokens
import Relocate.Proofs.Rewrite.Target

/-!
# Broken imports are reported

Two tests decide about a path on their own. Repair looks after a path that
starts with the alias up to its first slash, or with dots; a path is an import
when it goes on below the alias without the slashes at its end, or leads by
dots into the components. The second implies the first, whatever slashes the
alias has or lacks (`tracks_of_shape?`), so no import with a broken literal is
passed over.

* `Noted`: the entry of a token among the reports, by the token's offsets.
* `noted_or_passed`: at one clause, repair makes the entry of its token, or
  none if the clause is no broken import.
* `malformed_reported`: the reports are the entries of some tokens of the
  text, in order, and the broken imports are among these.
-/
namespace Relocate

open Text

/-! ## The two tests of a path -/

namespace Text

/-- What is cut off at the end is all of one kind. -/
theorem exists_trimEnd (c : Char) (t : List Char) :
    ∃ v, t = trimEnd c t ++ v ∧ ∀ x ∈ v, x = c := by
  refine ⟨(t.reverse.takeWhile (· == c)).reverse, ?_, ?_⟩
  · rw [trimEnd, ← List.reverse_append, List.takeWhile_append_dropWhile, List.reverse_reverse]
  · intro x hx
    simpa using of_mem_takeWhile (List.mem_reverse.mp hx)

/-- The first `c` comes at the latest where only `c`s are left. -/
theorem throughFirst_prefix {c : Char} {v : List Char} (u : List Char) (h : ∀ x ∈ v, x = c) :
    throughFirst c (u ++ v) <+: u ++ [c] := by
  induction u with
  | nil =>
    cases v with
    | nil => exact List.nil_prefix
    | cons x v =>
      have hx := h x List.mem_cons_self
      simp [throughFirst, hx]
  | cons d u ih =>
    by_cases hd : d = c
    · simp [throughFirst, hd]
    · simpa [throughFirst, hd] using ih

end Text

namespace Layout

variable {l : Layout} {folder : Path} {path : List Char}

theorem aliasRoot_prefix (l : Layout) : l.aliasRoot <+: l.aliasBase ++ ['/'] := by
  obtain ⟨v, hv, hslash⟩ := exists_trimEnd '/' l.aliasPrefix.toList
  have hroot := throughFirst_prefix l.aliasBase hslash
  rwa [aliasBase, ← hv] at hroot

/-- Repair looks after every path that has the shape of an import. -/
theorem tracks_of_shape? (h : (Import.shape? l folder path).isSome) : l.tracks path := by
  unfold tracks
  rw [Bool.or_eq_true, List.isPrefixOf_iff_prefix]
  unfold Import.shape? at h
  split at h
  · rename_i x rest hdrop
    left
    have hpath := dropPrefix?_eq_some_iff.mp hdrop
    have hbelow : l.aliasBase ++ ['/'] <+: path := ⟨x :: rest, by simp [hpath]⟩
    exact l.aliasRoot_prefix.trans hbelow
  · cases h
  · right
    split at h
    · assumption
    · cases h

end Layout

/-! ## Entries -/

namespace Bytes

/-- The entry of a token among the reports of repair. -/
inductive Noted (text : String) (t : Token) : Repair ⊕ Ambiguity → Prop
  | inserted {line column : Nat} :
    t.closing = .missing → lineColumn? text t.keyword = some (line, column) →
      Noted text t (.inl ⟨line, String.ofList t.path, t.quote, .inserted⟩)
  | replaced {stray line column : Nat} :
    t.closing = .mismatched stray → lineColumn? text t.keyword = some (line, column) →
      Noted text t (.inl ⟨line, String.ofList t.path, t.quote, .replaced⟩)
  /-- The place is where the path ends. -/
  | ambiguous {line column : Nat} {snippet : List Char} :
    t.closing = .ambiguous → lineColumn? text t.stop = some (line, column) →
      lineAt? text t.keyword = some snippet →
        Noted text t (.inr ⟨line, column, String.ofList snippet⟩)

/-- Whether a token is an import, in a file of `folder`, that does not close as it should. -/
def isMalformed (l : Layout) (folder : Path) (t : Token) : Bool :=
  (Import.ofClause? l folder t.clause).any fun i => i.style = .malformed

/-- The broken imports of a text. -/
def malformed (l : Layout) (folder : Path) (text : String) : List Token :=
  (tokens text).filter (isMalformed l folder)

section

variable {l : Layout} {folder : Path} {text : String} {s : Site}

theorem ne_malformed_of_shape? {path : List Char} {style : Style}
    (h : Import.shape? l folder path = some style) : style ≠ .malformed := by
  intro hstyle
  obtain ⟨haliased, -⟩ | ⟨hrelative, -⟩ := Import.shape?_eq_some h
  · rw [hstyle] at haliased
    cases haliased
  · rw [hstyle] at hrelative
    cases hrelative

/-- A broken import is of those that repair looks after, and its literal does not end with its
own quote. -/
theorem of_isMalformed (h : isMalformed l folder (tokenOf s)) :
    l.tracks s.clause.path ∧ s.clause.ending ≠ .matched ∧ ∀ u, s.clause.ending ≠ .irregular u := by
  unfold isMalformed at h
  rw [ofClause?_clause, Option.any_eq_true] at h
  obtain ⟨i, hi, hstyle⟩ := h
  obtain ⟨⟨shape, hshape, hending⟩, -⟩ := Import.ofClause?_eq_some_iff.mp hi
  rw [of_decide_eq_true hstyle] at hending
  refine ⟨Layout.tracks_of_shape? (by rw [hshape]; rfl), ?_, ?_⟩
  · intro hmatched
    rw [hmatched] at hending
    exact ne_malformed_of_shape? hshape (Option.some.inj hending)
  · intro u hirregular
    rw [hirregular] at hending
    cases hending

/-- At a clause repair makes the entry of its token, or none if it is no broken import. -/
theorem noted_or_passed (l : Layout) (h : LiesIn text s) :
    (l.repairAt? s = none ∧ l.ambiguityAt? s = none ∧
      ∀ folder, isMalformed l folder (tokenOf s) = false) ∨
    (∃ r, l.repairAt? s = some r ∧ l.ambiguityAt? s = none ∧ Noted text (tokenOf s) (.inl r)) ∨
    ∃ a, l.repairAt? s = none ∧ l.ambiguityAt? s = some a ∧ Noted text (tokenOf s) (.inr a) := by
  obtain ⟨hkeyword, -, hstop, hline⟩ := h.lines
  have hclosing : (tokenOf s).closing = closingOf s.offsets.stop s.clause.ending := rfl
  have hsound : ∀ folder, (l.tracks s.clause.path → s.clause.ending = .matched ∨
      ∃ u, s.clause.ending = .irregular u) → isMalformed l folder (tokenOf s) = false := by
    intro folder hends
    apply Bool.eq_false_iff.mpr
    intro hmalformed
    obtain ⟨htracks, hmatched, hirregular⟩ := of_isMalformed hmalformed
    obtain hends | ⟨u, hends⟩ := hends htracks
    · exact hmatched hends
    · exact hirregular u hends
  unfold Layout.repairAt? Layout.ambiguityAt?
  cases htracks : l.tracks s.clause.path with
  | false =>
    refine .inl ⟨rfl, ?_, fun folder => hsound folder (by simp [htracks])⟩
    split <;> rfl
  | true =>
    cases hending : s.clause.ending with
    | matched => exact .inl ⟨rfl, rfl, fun folder => hsound folder fun _ => .inl hending⟩
    | irregular u => exact .inl ⟨rfl, rfl, fun folder => hsound folder fun _ => .inr ⟨u, hending⟩⟩
    | missing u =>
      exact .inr (.inl ⟨_, rfl, rfl, .inserted (by rw [hclosing, hending]; rfl) hkeyword⟩)
    | mismatched before after =>
      exact .inr (.inl ⟨_, rfl, rfl, .replaced (by rw [hclosing, hending]; rfl) hkeyword⟩)
    | ambiguous u =>
      exact .inr (.inr ⟨_, rfl, rfl, .ambiguous (by rw [hclosing, hending]; rfl) hstop hline⟩)

/-- Of clauses that lie in the text, those are reported that have an entry, in their order. -/
theorem exists_reported (l : Layout) {found : List Site} (h : ∀ s ∈ found, LiesIn text s) :
    ∃ reported entries, reported.Sublist (found.map tokenOf) ∧
      (∀ folder, ((found.map tokenOf).filter (isMalformed l folder)).Sublist reported) ∧
      List.Forall₂ (Noted text) reported entries ∧
      found.filterMap l.repairAt? = entries.filterMap Sum.getLeft? ∧
      found.filterMap l.ambiguityAt? = entries.filterMap Sum.getRight? := by
  induction found with
  | nil => exact ⟨[], [], .slnil, fun _ => .slnil, .nil, rfl, rfl⟩
  | cons s found ih =>
    obtain ⟨reported, entries, hsub, hmalformed, hnoted, hrepairs, hambiguous⟩ :=
      ih fun s' hs' => h s' (List.mem_cons_of_mem _ hs')
    have hwith : ∀ folder, (((s :: found).map tokenOf).filter (isMalformed l folder)).Sublist
        (tokenOf s :: reported) := by
      intro folder
      rw [List.map_cons, List.filter_cons]
      split
      · exact (hmalformed folder).cons_cons _
      · exact (hmalformed folder).cons _
    obtain ⟨hrepair, hambiguity, hsound⟩ | ⟨r, hrepair, hambiguity, hentry⟩ |
      ⟨a, hrepair, hambiguity, hentry⟩ := noted_or_passed l (h s List.mem_cons_self)
    · refine ⟨reported, entries, hsub.cons _, ?_, hnoted, ?_, ?_⟩
      · intro folder
        rw [List.map_cons, List.filter_cons_of_neg (by simp [hsound folder])]
        exact hmalformed folder
      · rw [List.filterMap_cons_none hrepair, hrepairs]
      · rw [List.filterMap_cons_none hambiguity, hambiguous]
    · refine ⟨tokenOf s :: reported, .inl r :: entries, hsub.cons_cons _, hwith,
        .cons hentry hnoted, ?_, ?_⟩
      · rw [List.filterMap_cons_some hrepair, hrepairs]
        rfl
      · rw [List.filterMap_cons_none hambiguity, hambiguous]
        rfl
    · refine ⟨tokenOf s :: reported, .inr a :: entries, hsub.cons_cons _, hwith,
        .cons hentry hnoted, ?_, ?_⟩
      · rw [List.filterMap_cons_none hrepair, hrepairs]
        rfl
      · rw [List.filterMap_cons_some hambiguity, hambiguous]
        rfl

end

/-- Every path that has the shape of an import is one that repair looks after. The reports of
repair are the entries of tokens of the text, in their order, and every broken import is among
these tokens. -/
theorem malformed_reported (l : Layout) (text : String) :
    (∀ folder path, (Import.shape? l folder path).isSome → l.tracks path) ∧
      ∃ reported entries, reported.Sublist (tokens text) ∧
        (∀ folder, (malformed l folder text).Sublist reported) ∧
        List.Forall₂ (Noted text) reported entries ∧
        (l.repair text).repairs = entries.filterMap Sum.getLeft? ∧
        (l.repair text).ambiguous = entries.filterMap Sum.getRight? :=
  ⟨fun _ _ => Layout.tracks_of_shape?, exists_reported l fun _ => LiesIn.of_mem_sites⟩

/-- Three broken imports under an alias with slashes at its end, beside one that closes and one
broken path that is no import. -/
def brokenImports : String :=
  "from '@/components/A\nfrom \"./b' ;\nfrom './c \"d\nfrom './e'\nfrom '@/shared/F\n"

/-- Each of the three comes up, and so does the broken path, which repair looks after too. -/
theorem malformed_reported_slashes :
    let l : Layout := { aliasPrefix := "@/components//" }
    let folder : Path := ⟨"src/components"⟩
    (malformed l folder brokenImports).map Token.closing = [.missing, .mismatched 30, .ambiguous] ∧
      (l.repair brokenImports).repairs.map Repair.path = ["@/components/A", "./b", "@/shared/F"] ∧
      ∃ reported entries, reported.Sublist (tokens brokenImports) ∧
        (malformed l folder brokenImports).Sublist reported ∧
        List.Forall₂ (Noted brokenImports) reported entries ∧
        (l.repair brokenImports).repairs = entries.filterMap Sum.getLeft? ∧
        (l.repair brokenImports).ambiguous = entries.filterMap Sum.getRight? := by
  intro l folder
  refine ⟨by decide +kernel, by decide +kernel, ?_⟩
  obtain ⟨reported, entries, hsub, hmalformed, hreports⟩ := (malformed_reported l brokenImports).2
  exact ⟨reported, entries, hsub, hmalformed folder, hreports⟩

end Bytes

end Relocate
