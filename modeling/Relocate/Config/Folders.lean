import Relocate.Registry

/-!
# Folder tables

Folders with the names of their modules, in the order of the folders' names.
The order is part of the type, so two tables with the same rows are equal.
-/
namespace Relocate

/-- Puts a row in its place; a row of the same name is replaced. -/
def insertRow (folder : String) (names : List String) :
    List (String × List String) → List (String × List String)
  | [] => [(folder, names)]
  | row :: rows =>
    if folder < row.1 then (folder, names) :: row :: rows
    else if folder = row.1 then (folder, names) :: rows
    else row :: insertRow folder names rows

theorem mem_insertRow {folder : String} {names : List String} {rows : List (String × List String)}
    {row : String × List String} (h : row ∈ insertRow folder names rows) :
    row = (folder, names) ∨ row ∈ rows := by
  induction rows with
  | nil => simpa [insertRow] using h
  | cons r rows ih =>
    simp only [insertRow] at h
    split at h
    · simpa using h
    split at h
    · rcases List.mem_cons.1 h with h | h <;> simp [h]
    · rcases List.mem_cons.1 h with h | h
      · simp [h]
      · rcases ih h with h | h <;> simp [h]

theorem pairwise_insertRow (folder : String) (names : List String)
    {rows : List (String × List String)} (h : rows.Pairwise (·.1 < ·.1)) :
    (insertRow folder names rows).Pairwise (·.1 < ·.1) := by
  induction rows with
  | nil => simp [insertRow]
  | cons r rows ih =>
    obtain ⟨hr, hrows⟩ := List.pairwise_cons.1 h
    simp only [insertRow]
    split
    · rename_i hk
      refine List.pairwise_cons.2 ⟨fun x hx => ?_, h⟩
      rcases List.mem_cons.1 hx with rfl | hx
      · exact hk
      · exact String.lt_trans hk (hr x hx)
    split
    · rename_i hk; exact List.pairwise_cons.2 ⟨hk ▸ hr, hrows⟩
    · rename_i hlt hne
      refine List.pairwise_cons.2 ⟨fun x hx => ?_, ih hrows⟩
      rcases mem_insertRow hx with rfl | hx
      · exact Std.lt_of_le_of_ne (Std.not_lt.1 hlt) (Ne.symm hne)
      · exact hr x hx

structure FolderTable where
  rows : List (String × List String)
  sorted : rows.Pairwise (·.1 < ·.1)
  deriving DecidableEq, Repr

namespace FolderTable

def empty : FolderTable := ⟨[], .nil⟩

instance : Inhabited FolderTable := ⟨empty⟩

def insert (t : FolderTable) (folder : String) (names : List String) : FolderTable :=
  ⟨insertRow folder names t.rows, pairwise_insertRow folder names t.sorted⟩

/-- The table of a list of rows; of two rows with one name the later counts. -/
def ofRows (rows : List (String × List String)) : FolderTable :=
  rows.foldl (fun t row => t.insert row.1 row.2) empty

/-- One record for each name of each folder. -/
def records (t : FolderTable) : List Record :=
  t.rows.flatMap fun row => row.2.map fun name => ⟨name, row.1⟩

end FolderTable

end Relocate
