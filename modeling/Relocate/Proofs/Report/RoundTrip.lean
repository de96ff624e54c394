import Relocate.Command.Run
import Relocate.Proofs.Json.RoundTrip
import Relocate.Proofs.Value

/-!
# Reports read back

A report that is printed as JSON is read back as it was, although lists with
nothing in them and canonical paths that do not exist are not printed, and
the status of a file stands among the file's own fields. The only condition
is on its counters: a reader takes numbers of 64 bits.

* `counters`: every number in a report.
* `ofValue?_toValue`, for each kind of record: the record is read back from
  its value.
* `Summary.exact_toValue`: the value is one that a text keeps.
* `Summary.read_back`: the summary is read back from its text.
-/
namespace Relocate

open Value (required orElse)

/-! ## Counters -/

def Repair.counters (r : Repair) : List Nat := [r.line]

def Ambiguity.counters (a : Ambiguity) : List Nat := [a.line, a.column]

def Edit.counters (e : Edit) : List Nat := [e.line]

def Finding.counters (f : Finding) : List Nat := [f.line, f.column]

def FileReport.counters (f : FileReport) : List Nat :=
  f.edits.flatMap Edit.counters ++ f.repairs.flatMap Repair.counters ++
    f.ambiguous.flatMap Ambiguity.counters ++ f.findings.flatMap Finding.counters

/-- Every number in a summary. -/
def Summary.counters (s : Summary) : List Nat := s.filesScanned :: s.files.flatMap FileReport.counters

theorem Value.count?_ofNat {n : Nat} (h : n < UInt64.size) : (Value.ofNat n).count? = some n := by
  simp [Value.ofNat, Value.count?, h]

/-! ## Records -/

@[simp] theorem Quote.ofValue?_label (q : Quote) : Quote.ofValue? (.str q.label) = some q := by
  cases q <;> rfl

@[simp] theorem Style.ofValue?_tag (s : Style) : Style.ofValue? (.str s.tag) = some s := by
  cases s <;> rfl

@[simp] theorem RepairKind.ofValue?_tag (k : RepairKind) :
    RepairKind.ofValue? (.str k.tag) = some k := by cases k <;> rfl

theorem Repair.ofValue?_toValue {r : Repair} (h : ∀ n ∈ r.counters, n < UInt64.size) :
    Repair.ofValue? r.toValue = some r := by
  simp only [counters, List.mem_singleton, forall_eq] at h
  simp [toValue, ofValue?, Value.record?, Value.get?_cons, Value.count?_ofNat h]

theorem Ambiguity.ofValue?_toValue {a : Ambiguity} (h : ∀ n ∈ a.counters, n < UInt64.size) :
    Ambiguity.ofValue? a.toValue = some a := by
  simp only [counters, List.forall_mem_cons] at h
  simp [toValue, ofValue?, Value.record?, Value.get?_cons, Value.count?_ofNat h.1,
    Value.count?_ofNat h.2.1]

theorem Edit.ofValue?_toValue {e : Edit} (h : ∀ n ∈ e.counters, n < UInt64.size) :
    Edit.ofValue? e.toValue = some e := by
  simp only [counters, List.mem_singleton, forall_eq] at h
  simp [toValue, ofValue?, Value.record?, Value.get?_cons, Value.count?_ofNat h]

theorem Finding.ofValue?_toValue {f : Finding} (h : ∀ n ∈ f.counters, n < UInt64.size) :
    Finding.ofValue? f.toValue = some f := by
  obtain ⟨line, column, path, name, registered, canonical, statement⟩ := f
  simp only [counters, List.forall_mem_cons] at h
  cases canonical with
  | none =>
    simp [toValue, ofValue?, Value.record?, Value.get?_cons, Value.count?_ofNat h.1,
      Value.count?_ofNat h.2.1, orElse]
  | some c =>
    simp [toValue, ofValue?, Value.record?, Value.get?_cons, Value.count?_ofNat h.1,
      Value.count?_ofNat h.2.1, orElse, optional?]

/-! ## Files -/

namespace FileReport

/-- What stands for a list among the fields, if anything does. -/
def listField? {α : Type} (toValue : α → Value) (items : List α) : Option Value :=
  if items = [] then none else some (.array (items.map toValue))

theorem get?_listField {α : Type} (name : String) (toValue : α → Value) (items : List α)
    (other : String) :
    (Value.table (listField name toValue items)).get? other =
      if other = name then listField? toValue items else none := by
  cases items with
  | nil => simp [listField, listField?]
  | cons a items => simp [listField, listField?, Value.get?_singleton]

/-- A list that is left out when it is empty is read back. -/
theorem orElse_listField {α : Type} {item? : Value → Option α} {toValue : α → Value}
    {items : List α} (h : ∀ a ∈ items, item? (toValue a) = some a) :
    orElse [] (Value.list? item?) (listField? toValue items) = some items := by
  cases items with
  | nil => rfl
  | cons a items => simpa [listField?, orElse] using Value.list?_map h

theorem get?_status {status : FileStatus} {name : String}
    (h : name ≠ "status" ∧ name ≠ "written" ∧ name ≠ "reason") :
    (Value.table status.fields).get? name = none := by
  cases status <;> simp [FileStatus.fields, Value.get?_cons, h]

/-- The fields of the status are found among the fields of the file. -/
theorem get?_toValue_status (f : FileReport) {name : String}
    (h : name = "status" ∨ name = "written" ∨ name = "reason") :
    f.toValue.get? name = (Value.table f.status.fields).get? name := by
  rcases h with rfl | rfl | rfl <;> simp [toValue, Value.get?_cons, get?_listField]

theorem ofFields?_toValue (f : FileReport) : FileStatus.ofFields? f.toValue = some f.status := by
  simp only [FileStatus.ofFields?, get?_toValue_status f (Or.inl rfl),
    get?_toValue_status f (Or.inr (Or.inl rfl)), get?_toValue_status f (Or.inr (Or.inr rfl))]
  cases f.status <;> simp [FileStatus.fields, Value.get?_cons]

theorem ofValue?_toValue {f : FileReport} (h : ∀ n ∈ f.counters, n < UInt64.size) :
    FileReport.ofValue? f.toValue = some f := by
  have hedits : ∀ e ∈ f.edits, Edit.ofValue? e.toValue = some e := fun e he =>
    Edit.ofValue?_toValue fun n hn => h n (by simp [counters]; grind)
  have hrepairs : ∀ r ∈ f.repairs, Repair.ofValue? r.toValue = some r := fun r hr =>
    Repair.ofValue?_toValue fun n hn => h n (by simp [counters]; grind)
  have hambiguous : ∀ a ∈ f.ambiguous, Ambiguity.ofValue? a.toValue = some a := fun a ha =>
    Ambiguity.ofValue?_toValue fun n hn => h n (by simp [counters]; grind)
  have hfindings : ∀ g ∈ f.findings, Finding.ofValue? g.toValue = some g := fun g hg =>
    Finding.ofValue?_toValue fun n hn => h n (by simp [counters]; grind)
  have hstatus := ofFields?_toValue f
  rw [toValue] at hstatus ⊢
  rw [ofValue?, hstatus]
  simp [Value.get?_cons, get?_listField, get?_status, orElse_listField hedits,
    orElse_listField hrepairs, orElse_listField hambiguous, orElse_listField hfindings]

end FileReport

namespace Summary

theorem ofValue?_toValue {s : Summary} (h : ∀ n ∈ s.counters, n < UInt64.size) :
    Summary.ofValue? s.toValue = some s := by
  simp only [counters, List.forall_mem_cons, List.forall_mem_flatMap] at h
  have hfiles : ∀ f ∈ s.files, FileReport.ofValue? f.toValue = some f := fun f hf =>
    FileReport.ofValue?_toValue (h.2 f hf)
  simp [toValue, ofValue?, Value.record?, Value.get?_cons, Value.count?_ofNat h.1,
    Value.list?_map hfiles]

end Summary

/-! ## Texts -/

section Exact

attribute [local simp] Value.Exact.bool Value.Exact.int Value.Exact.str

theorem Value.exact_map {α : Type} {toValue : α → Value} (items : List α)
    (h : ∀ a, (toValue a).Exact) : (Value.array (items.map toValue)).Exact :=
  .array fun v hv => by
    obtain ⟨a, -, rfl⟩ := List.mem_map.mp hv
    exact h a

theorem Repair.exact_toValue (r : Repair) : r.toValue.Exact :=
  .table (by simp [Value.ofNat])

theorem Ambiguity.exact_toValue (a : Ambiguity) : a.toValue.Exact :=
  .table (by simp [Value.ofNat])

theorem Edit.exact_toValue (e : Edit) : e.toValue.Exact :=
  .table (by simp [Value.ofNat])

theorem Finding.exact_toValue (f : Finding) : f.toValue.Exact := by
  refine .table ?_
  cases f.canonical <;> simp [Value.ofNat]

theorem FileReport.exact_listField {α : Type} (name : String) {toValue : α → Value}
    (items : List α) (h : ∀ a, (toValue a).Exact) :
    ∀ field ∈ listField name toValue items, field.2.Exact := by
  cases items with
  | nil => simp [listField]
  | cons a items => simpa [listField] using Value.exact_map (a :: items) h

theorem FileReport.exact_toValue (f : FileReport) : f.toValue.Exact := by
  refine .table ?_
  have hstatus : ∀ field ∈ f.status.fields, field.2.Exact := by
    cases f.status <;> simp [FileStatus.fields]
  simp only [List.forall_mem_append, List.forall_mem_cons]
  exact ⟨⟨⟨⟨⟨.str _, hstatus⟩, exact_listField _ _ Edit.exact_toValue⟩,
    exact_listField _ _ Repair.exact_toValue⟩, exact_listField _ _ Ambiguity.exact_toValue⟩,
    exact_listField _ _ Finding.exact_toValue⟩

theorem Summary.exact_toValue (s : Summary) : s.toValue.Exact :=
  .table (by simpa [Value.ofNat] using Value.exact_map s.files FileReport.exact_toValue)

end Exact

/-- A summary whose counters have 64 bits at most is read back from its text, and from what a
command prints, a line break behind the text. -/
theorem Summary.read_back (s : Summary) (h : ∀ n ∈ s.counters, n < UInt64.size)
    (o : Project.Options) :
    (Json.read? (Json.pretty s.toValue)).bind Summary.ofValue? = some s ∧
      (Json.read? (Command.render s o .json)).bind Summary.ofValue? = some s := by
  have hread : ∀ space : List Char, (∀ c ∈ space, Json.isSpace c) →
      (Json.read? (String.ofList (Json.write .pretty 0 s.toValue ++ space))).bind
        Summary.ofValue? = some s := by
    intro space hspace
    rw [Json.read?_write s.exact_toValue .pretty hspace, Option.bind_some, ofValue?_toValue h]
  refine ⟨by simpa [Json.pretty] using hread [] (by simp), ?_⟩
  simpa [Command.render, Json.pretty, String.ofList_append] using
    hread ['\n'] (List.forall_mem_singleton.2 (by decide))

/-- All kinds of status, of events and of characters, and the largest counter. -/
theorem Summary.read_back_all_kinds :
    let s : Summary := ⟨2 ^ 64 - 1, [⟨⟨"a\"b\\\u0001é😀"⟩, .unchanged, [], [], [], []⟩,
      ⟨⟨"src/b.ts"⟩, .changed false,
        [⟨1, "Uart", .otherFolder, "../Uart", "./Uart"⟩, ⟨2, "Core", .aliased, "@/x/Core", "@/y/Core"⟩],
        [⟨3, "./Core", .single, .inserted⟩, ⟨4, "./Core", .double, .replaced⟩],
        [⟨5, 6, "from './x\n"⟩],
        [⟨7, 8, "../Uart", "Uart", true, some "./Uart", "import"⟩,
          ⟨9, 10, "../Gone", "Gone", false, none, "import"⟩]⟩,
      ⟨⟨"src/c.ts"⟩, .skipped "unreadable", [], [], [], []⟩]⟩
    (∀ n ∈ s.counters, n < UInt64.size) ∧
      (Json.read? (Json.pretty s.toValue)).bind Summary.ofValue? = some s :=
  have h := by decide
  ⟨h, (Summary.read_back _ h ⟨.fix, true⟩).1⟩

end Relocate
