import Mathlib.Data.List.Forall2
import Relocate.Value

/-!
# Fields of tables

Looking a field up, with one rewriting rule for each way in which a table is
put together, and reading a list back from the array of its items. A table
with the names of another overrides it as a whole, if each of its fields does
(`merge_table`).
-/
namespace Relocate.Value

@[simp] theorem get?_nil (name : String) : (table []).get? name = none := rfl

@[simp] theorem get?_append (fields others : List (String × Value)) (name : String) :
    (table (fields ++ others)).get? name =
      ((table others).get? name <|> (table fields).get? name) := by
  simp [get?, List.lookup_append]

theorem get?_singleton (name : String) (v : Value) (other : String) :
    (table [(name, v)]).get? other = if other = name then some v else none := by
  by_cases h : other = name
  · simp [get?, h]
  · simp [get?, List.lookup_cons, h, beq_eq_false_iff_ne.mpr h]

theorem get?_cons (field : String × Value) (fields : List (String × Value)) (name : String) :
    (table (field :: fields)).get? name =
      ((table fields).get? name <|> if name = field.1 then some field.2 else none) := by
  rw [← List.singleton_append, get?_append, get?_singleton]

@[simp] theorem required_some {α : Type} (read? : Value → Option α) (v : Value) :
    required read? (some v) = read? v := rfl

@[simp] theorem string?_str (s : String) : (str s).string? = some s := rfl

@[simp] theorem bool?_bool (b : Bool) : (bool b).bool? = some b := rfl

theorem mapM_map {α β : Type} {toItem : α → β} {item? : β → Option α} {items : List α}
    (h : ∀ a ∈ items, item? (toItem a) = some a) : (items.map toItem).mapM item? = some items := by
  induction items with
  | nil => rfl
  | cons a items ih =>
    simp [h a (by simp), ih fun b hb => h b (List.mem_cons_of_mem _ hb)]

theorem list?_map {α : Type} {toValue : α → Value} {item? : Value → Option α} {items : List α}
    (h : ∀ a ∈ items, item? (toValue a) = some a) :
    list? item? (array (items.map toValue)) = some items := mapM_map h

/-! ## Overriding -/

theorem lookup_fresh {α : Type} {name : String} {fields : List (String × α)}
    (h : name ∉ fields.map Prod.fst) : fields.lookup name = none := by
  rw [List.lookup_eq_none_iff]
  intro field hfield
  have hne : name ≠ field.1 := fun e => h (List.mem_map.2 ⟨field, hfield, e.symm⟩)
  simpa using hne

theorem mergeFields_cons {name : String} (v w : Value) (fields : List (String × Value))
    {others : List (String × Value)} (h : name ∉ others.map Prod.fst) :
    mergeFields ((name, v) :: fields) ((name, w) :: others) =
      (name, v.merge w) :: mergeFields fields others := by
  have hlast : ((name, w) :: others).reverse.lookup name = some w := by
    have hnone : others.reverse.lookup name = none := lookup_fresh (by simpa using h)
    simp [List.lookup_append, hnone]
  have hkept : others.filter (fun field => field.1 != name) = others := by
    rw [List.filter_eq_self]
    intro field hfield
    exact bne_iff_ne.2 fun e => h (List.mem_map.2 ⟨field, hfield, e⟩)
  rw [mergeFields, hlast]
  simp [hkept]

theorem merge_table {fields others : List (String × Value)}
    (h : List.Forall₂ (fun f o => f.1 = o.1 ∧ f.2.merge o.2 = o.2) fields others)
    (hnames : (others.map Prod.fst).Nodup) :
    (table fields).merge (table others) = table others := by
  suffices hfields : mergeFields fields others = others by rw [merge, hfields]
  induction h with
  | nil => rw [mergeFields]
  | @cons f o fields others hhead _ ih =>
    obtain ⟨name, v⟩ := f
    obtain ⟨_, w⟩ := o
    obtain ⟨rfl, hmerge⟩ : name = _ ∧ v.merge w = w := hhead
    obtain ⟨hfresh, hnames⟩ := List.nodup_cons.1 hnames
    rw [mergeFields_cons v w fields hfresh, hmerge, ih hnames]

theorem merge_table_nil (fields : List (String × Value)) :
    (table fields).merge (table []) = table fields := by
  suffices hfields : mergeFields fields [] = fields by rw [merge, hfields]
  induction fields with
  | nil => rw [mergeFields]
  | cons field fields ih =>
    rw [mergeFields]
    simp [ih]

end Relocate.Value
