import Relocate.Config.Load
import Relocate.Proofs.Toml.Tables
import Relocate.Proofs.Value

/-!
# Configurations read back

The document of a configuration spells the value of that configuration
(`read?_toToml`): its six sections open one table after another, the folders
inside the registry. That value names every setting, so over the defaults
nothing of the defaults is left (`merge_toValue`), and each section is read
back from its fields (`ofSettings?_toValue`). Together, `ofLayers_toValue`: the
layers of a loaded document spell the configuration that was written.
-/
namespace Relocate

@[simp] theorem Value.strings?_ofStrings (texts : List String) :
    (Value.ofStrings texts).strings? = some texts := Value.list?_map fun _ _ => rfl

@[simp] theorem Value.orElse_some {α : Type} (default : α) (read? : Value → Option α) (v : Value) :
    Value.orElse default read? (some v) = read? v := rfl

namespace FolderTable

/-- A row that comes last in the order is put at the end. -/
theorem insertRow_last {folder : String} (names : List String) {rows : List (String × List String)}
    (h : ∀ row ∈ rows, row.1 < folder) :
    insertRow folder names rows = rows ++ [(folder, names)] := by
  induction rows with
  | nil => rfl
  | cons row rows ih =>
    have hlt := h row List.mem_cons_self
    have hnot : ¬folder < row.1 := fun hgt => String.lt_irrefl _ (String.lt_trans hlt hgt)
    have hne : folder ≠ row.1 := fun e => String.lt_irrefl _ (e ▸ hlt)
    rw [insertRow, if_neg hnot, if_neg hne, ih fun r hr => h r (List.mem_cons_of_mem _ hr),
      List.cons_append]

theorem rows_foldl_insert (t : FolderTable) {rows : List (String × List String)}
    (h : (t.rows ++ rows).Pairwise (·.1 < ·.1)) :
    (rows.foldl (fun t row => t.insert row.1 row.2) t).rows = t.rows ++ rows := by
  induction rows generalizing t with
  | nil => simp
  | cons row rows ih =>
    have hlast : (t.insert row.1 row.2).rows = t.rows ++ [row] :=
      insertRow_last row.2 fun r hr =>
        (List.pairwise_append.1 h).2.2 r hr row List.mem_cons_self
    rw [List.foldl_cons, ih _ (by simpa [hlast] using h), hlast]
    simp

@[simp] theorem ofRows_rows (t : FolderTable) : ofRows t.rows = t := by
  have hrows : (ofRows t.rows).rows = t.rows :=
    rows_foldl_insert empty (by simpa [empty] using t.sorted)
  cases h : ofRows t.rows
  cases t
  simp_all

theorem ofValue?_toValue (t : FolderTable) : ofValue? t.toValue = some t := by
  have hrows : (t.rows.map fun row => (row.1, Value.ofStrings row.2)).mapM
      (fun field => field.2.strings?.map fun names => (field.1, names)) = some t.rows :=
    Value.mapM_map fun row _ => by simp
  simp [toValue, ofValue?, hrows]

end FolderTable

/-! ## Sections -/

theorem Layout.ofValue?_fields (l : Layout) : ofValue? (.table l.fields) = some l := by
  simp [ofValue?, Value.record?, settingNames, fields, Value.get?_cons, Path.ofValue?, Path.toValue]

theorem ScanConfig.ofValue?_fields {s : ScanConfig} (h : s.concurrency < 2 ^ 63) :
    ofValue? (.table s.fields) = some s := by
  have hroots : Value.list? Path.ofValue? (.array (s.roots.map Path.toValue)) = some s.roots :=
    Value.list?_map fun _ _ => rfl
  have hcount : (Value.int s.concurrency).count? = some s.concurrency :=
    if_pos (Nat.lt_trans h (by decide))
  simp [ofValue?, Value.record?, settingNames, fields, Value.get?_cons, hroots, hcount]

theorem Policy.ofSection?_tag (p : Policy) :
    ofSection? (.table [("style", .str p.tag)]) = some p := by
  have hpolicy : ofValue? (.str p.tag) = some p := by cases p <;> rfl
  simp [ofSection?, Value.record?, settingNames, Value.get?_cons, hpolicy]

theorem RegistryConfig.ofValue?_fields (r : RegistryConfig) :
    ofValue? (.table [("use_preset", .bool r.usePreset), ("folders", r.folders.toValue)]) =
      some r := by
  simp [ofValue?, Value.record?, settingNames, Value.get?_cons, FolderTable.ofValue?_toValue]

theorem LogConfig.ofValue?_fields (l : LogConfig) : ofValue? (.table l.fields) = some l := by
  have hformat : LogFormat.ofValue? (.str l.format.tag) = some l.format := by
    cases l.format <;> rfl
  simp [ofValue?, Value.record?, settingNames, fields, Value.get?_cons, hformat]

namespace Config

open Toml

variable {c : Config}

/-! ## The document -/

theorem isSetting_ofStrings (texts : List String) : IsSetting (.ofStrings texts) := by
  refine .array fun v hv => ?_
  obtain ⟨s, -, rfl⟩ := List.mem_map.1 hv
  exact .str s

theorem writable_sections (h : c.scan.concurrency < 2 ^ 63) : ∀ s ∈ c.sections, s.Writable := by
  have hroots : IsSetting (.array (c.scan.roots.map Path.toValue)) := by
    refine .array fun v hv => ?_
    obtain ⟨p, -, rfl⟩ := List.mem_map.1 hv
    exact .str p.text
  have hstr : ∀ s, IsSetting (.str s) := fun s => .scalar (.str s)
  have hcount : IsSetting (.int c.scan.concurrency) := .scalar (.count h)
  have hheaders : ∀ s ∈ c.sections, s.header ≠ [] ∧ s.header.length ≤ maxDepth := by
    simp [sections, maxDepth]
  have hrows : ∀ s ∈ c.sections, ∀ row ∈ s.rows, IsSetting row.2 := by
    simp only [sections, List.forall_mem_cons]
    refine ⟨?_, ?_, ?_, ?_, ?_, ?_, List.forall_mem_nil _⟩
    · simp [Layout.fields, Path.toValue, hstr]
    · simp [ScanConfig.fields, hroots, isSetting_ofStrings, hcount]
    · simp [hstr]
    · simp [IsSetting.scalar (.bool _)]
    · intro row hrow
      obtain ⟨_, -, rfl⟩ := List.mem_map.1 hrow
      exact isSetting_ofStrings _
    · simp [LogConfig.fields, hstr]
  exact fun s hs => ⟨(hheaders s hs).1, (hheaders s hs).2, hrows s hs⟩

theorem build?_sections (c : Config) :
    build? (c.sections.flatMap Section.statements) = some c.toValue := by
  have hfolders : ((c.registry.folders.rows.map fun row =>
      (row.1, Value.ofStrings row.2)).map Prod.fst).Nodup := by
    rw [List.map_map]
    refine List.pairwise_map.2 (c.registry.folders.sorted.imp fun {r r'} hlt e => ?_)
    exact String.lt_irrefl r.1 (by rwa [← show r.1 = r'.1 from e] at hlt)
  have hbuilds : Builds [] c.sections
      [("layout", .table .header (leaves c.layout.fields)),
       ("scan", .table .header (leaves c.scan.fields)),
       ("rewrite", .table .header (leaves [("style", .str c.policy.tag)])),
       ("registry", .table .header (leaves [("use_preset", .bool c.registry.usePreset)] ++
        [("folders", .table .header (leaves (c.registry.folders.rows.map fun row =>
          (row.1, .ofStrings row.2))))])),
       ("logging", .table .header (leaves c.logging.fields))] :=
    .next (.new (by simp)) (by simp [Layout.fields]) <|
    .next (.new (by simp)) (by simp [ScanConfig.fields]) <|
    .next (.new (by simp)) (by simp) <|
    .next (.new (by simp)) (by simp) <|
    .next (.below (.new (by simp [leaves])) (by simp) .header) hfolders <|
    .next (.new (by simp)) (by simp [LogConfig.fields]) <|
    .done _
  rw [hbuilds.build?]
  simp [fieldValues, Node.toValue, toValue, FolderTable.toValue]

theorem read?_toToml (h : c.scan.concurrency < 2 ^ 63) : read? c.toToml = some c.toValue := by
  rw [toToml, read?_write (writable_sections h), build?_sections]

theorem merge_toValue (c : Config) : (toValue {}).merge c.toValue = c.toValue := by
  refine Value.merge_table ?_ (by simp)
  simp only [List.forall₂_cons, true_and]
  refine ⟨Value.merge_table ?_ (by simp [Layout.fields]),
    Value.merge_table ?_ (by simp [ScanConfig.fields]), Value.merge_table ?_ (by simp),
    Value.merge_table ?_ (by simp), Value.merge_table ?_ (by simp [LogConfig.fields]), .nil⟩
  · simp [Layout.fields, Path.toValue, Value.merge]
  · simp [ScanConfig.fields, Value.merge, Value.ofStrings]
  · simp [Value.merge]
  · simp [Value.merge, FolderTable.toValue, FolderTable.empty, mergeFields]
  · simp [LogConfig.fields, Value.merge]

/-! ## Layers -/

theorem trimSection_table (name : String) (fields : List (String × Value)) :
    trimSection (name, .table fields) = (name, .table fields) := by
  unfold trimSection
  split <;> rfl

theorem ofSettings?_toValue (h : c.scan.concurrency < 2 ^ 63) : ofSettings? c.toValue = some c := by
  simp [toValue, ofSettings?, trimSection_table, ofValue?, Value.record?, Value.get?_cons,
    Layout.ofValue?_fields, ScanConfig.ofValue?_fields h, Policy.ofSection?_tag,
    RegistryConfig.ofValue?_fields, LogConfig.ofValue?_fields]

/-- Over the defaults and under an environment that sets nothing, the settings
of a configuration spell that configuration. -/
theorem ofLayers_toValue (h : c.scan.concurrency < 2 ^ 63) :
    ofLayers [c.toValue, .table []] = c.validate := by
  have hlayers : [c.toValue, .table []].foldl Value.merge (toValue {}) = c.toValue := by
    rw [List.foldl_cons, merge_toValue]
    exact Value.merge_table_nil _
  rw [ofLayers, hlayers, ofSettings?_toValue h]

end Config

end Relocate
