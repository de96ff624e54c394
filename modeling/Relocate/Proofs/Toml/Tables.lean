import Relocate.Proofs.Toml.RoundTrip
import Relocate.Proofs.Value

/-!
# Tables built from sections

The table that a header opened last is always the last one, at every level.
`Opens names fields put` says that the header `names` may come next after
`fields`, and that `put` then gives the fields with whatever the header's table
holds. A section whose settings have different names fills that table with its
rows (`Opens.foldlM_statements`), so a document is built section by section
(`Builds.build?`).
-/
namespace Relocate.Toml

open Value (lookup_fresh)

variable {name : String} {names : List String} {fields sub : Fields} {put : Fields → Fields}

/-! ## The last field -/

theorem lookup_last (h : name ∉ fields.map Prod.fst) (node : Node) :
    (fields ++ [(name, node)]).lookup name = some node := by
  simp [List.lookup_append, lookup_fresh h]

theorem setField_last (h : name ∉ fields.map Prod.fst) (node new : Node) :
    setField name new (fields ++ [(name, node)]) = fields ++ [(name, new)] := by
  have hkept : fields.map (fun field => if field.1 = name then (name, new) else field) =
      fields := by
    refine (List.map_congr_left fun field hfield => ?_).trans (List.map_id fields)
    exact if_neg fun e => h (List.mem_map.2 ⟨field, hfield, e⟩)
  simp [setField, hkept]

/-! ## Headers -/

/-- The header `names` may come after `fields`. Its table, when it holds `sub`,
makes the fields `put sub`, and a change within it is a change of `sub`. -/
structure Opens (names : List String) (fields : Fields) (put : Fields → Fields) : Prop where
  opened : openTable? false names fields = some (put [])
  within : ∀ change sub, within? change names (put sub) = (change sub).map put

/-- A header with a new name. -/
theorem Opens.new (h : name ∉ fields.map Prod.fst) :
    Opens [name] fields fun sub => fields ++ [(name, .table .header sub)] where
  opened := by simp [openTable?, lookup_fresh h]
  within change sub := by
    simp only [within?, lookup_last h, setField_last h]

/-- A header below the table that came last. -/
theorem Opens.below (hopen : Opens names sub put) (h : name ∉ fields.map Prod.fst)
    (origin : Origin) :
    Opens (name :: names) (fields ++ [(name, .table origin sub)]) fun s =>
      fields ++ [(name, .table origin (put s))] where
  opened := by
    have hne : names ≠ [] := by
      rintro rfl
      simpa [openTable?] using hopen.opened
    rw [openTable?, lookup_last h]
    · simp only [hopen.opened, Option.map_some, setField_last h]
    · exact hne
  within change s := by
    simp only [within?, lookup_last h, setField_last h, hopen.within, Option.map_map]
    rfl

/-! ## Settings -/

/-- Rows as fields. -/
def leaves (rows : List (String × Value)) : Fields := rows.map fun row => (row.1, .leaf row.2)

theorem Opens.foldlM_settings (hopen : Opens names fields put) {rows : List (String × Value)}
    (hrows : (rows.map Prod.fst).Nodup) (sub : Fields)
    (hsub : ∀ row ∈ rows, row.1 ∉ sub.map Prod.fst) :
    (rows.map fun row => Statement.setting [row.1] row.2).foldlM Draft.add? ⟨put sub, names⟩ =
      some ⟨put (sub ++ leaves rows), names⟩ := by
  induction rows generalizing sub with
  | nil => simp [leaves]
  | cons row rows ih =>
    obtain ⟨hnew, hrows⟩ := List.nodup_cons.1 hrows
    have hfresh : row.1 ∉ sub.map Prod.fst := hsub row List.mem_cons_self
    have hassign : assign? [row.1] row.2 sub = some (sub ++ [(row.1, .leaf row.2)]) := by
      rw [assign?, lookup_fresh hfresh]
    have hadd : Draft.add? ⟨put sub, names⟩ (.setting [row.1] row.2) =
        some ⟨put (sub ++ [(row.1, .leaf row.2)]), names⟩ := by
      simp only [Draft.add?, hopen.within, hassign, Option.map_some]
    rw [List.map_cons, List.foldlM_cons, hadd, Option.bind_eq_bind, Option.bind_some, ih hrows]
    · simp [leaves]
    · intro other hother hmem
      rw [List.map_append, List.mem_append] at hmem
      rcases hmem with hmem | hmem
      · exact hsub other (List.mem_cons_of_mem _ hother) hmem
      · have hsame : other.1 = row.1 := by simpa using hmem
        exact hnew (hsame ▸ List.mem_map_of_mem hother)

theorem Opens.foldlM_statements {s : Section} (hopen : Opens s.header fields put)
    (hrows : (s.rows.map Prod.fst).Nodup) (current : List String) :
    s.statements.foldlM Draft.add? ⟨fields, current⟩ =
      some ⟨put (leaves s.rows), s.header⟩ := by
  have hheader : Draft.add? ⟨fields, current⟩ (.header s.header) = some ⟨put [], s.header⟩ := by
    simp only [Draft.add?, hopen.opened, Option.map_some]
  have hrest := hopen.foldlM_settings hrows [] (by simp)
  rw [Section.statements, List.foldlM_cons, hheader, Option.bind_eq_bind, Option.bind_some, hrest,
    List.nil_append]

/-! ## Documents -/

/-- Sections that come one after another, each opening a table of its own. -/
inductive Builds : Fields → List Section → Fields → Prop where
  | done (fields : Fields) : Builds fields [] fields
  | next {fields result : Fields} {put : Fields → Fields} {s : Section} {more : List Section}
    (hopen : Opens s.header fields put) (hrows : (s.rows.map Prod.fst).Nodup)
    (hmore : Builds (put (leaves s.rows)) more result) : Builds fields (s :: more) result

theorem Builds.foldlM {result : Fields} {sections : List Section}
    (h : Builds fields sections result) (current : List String) :
    ∃ last, (sections.flatMap Section.statements).foldlM Draft.add? ⟨fields, current⟩ =
      some ⟨result, last⟩ := by
  induction h generalizing current with
  | done fields => exact ⟨current, rfl⟩
  | @next _ _ _ s _ hopen hrows _ ih =>
    obtain ⟨last, hlast⟩ := ih s.header
    refine ⟨last, ?_⟩
    rw [List.flatMap_cons, List.foldlM_append, hopen.foldlM_statements hrows current,
      Option.bind_eq_bind, Option.bind_some, hlast]

theorem Builds.build? {result : Fields} {sections : List Section}
    (h : Builds [] sections result) :
    build? (sections.flatMap Section.statements) = some (.table (fieldValues result)) := by
  obtain ⟨last, hlast⟩ := h.foldlM []
  rw [Toml.build?, hlast, Option.map_some]

/-! ## Values -/

@[simp] theorem fieldValues_append (fields others : Fields) :
    fieldValues (fields ++ others) = fieldValues fields ++ fieldValues others := by
  induction fields with
  | nil => simp [fieldValues]
  | cons field fields ih => simp [fieldValues, ih]

@[simp] theorem fieldValues_leaves (rows : List (String × Value)) :
    fieldValues (leaves rows) = rows := by
  induction rows with
  | nil => rfl
  | cons row rows ih =>
    rw [leaves] at ih
    simp [leaves, fieldValues, Node.toValue, ih]

end Relocate.Toml
