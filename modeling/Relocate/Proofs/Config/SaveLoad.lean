import Relocate.Proofs.Config.RoundTrip
import Relocate.Proofs.Disk.Folders

/-!
# Configurations saved and loaded

A configuration is saved as a document, in UTF-8, under the first of the names
that are looked for; the folders on the way are made if they are missing
(`exists_save`). Loading finds that file, reads its document back, and lays it
over the defaults; variables without the marker add nothing. So what was saved
is what is loaded (`load_saved`).
-/
namespace Relocate

namespace Override

/-- Whether the name of a variable says that it overrides a setting. -/
def isMarked (name : String) : Bool :=
  marker.isPrefixOf ((Text.trim name.toList).map Char.toLower)

theorem key?_of_unmarked {name : String} (h : isMarked name = false) : key? name = none := by
  rw [isMarked] at h
  simp [key?, h]

theorem foldlM_add_unmarked (settings : Value) {environment : List (String × String)}
    (h : ∀ v ∈ environment, isMarked v.1 = false) :
    environment.foldlM add settings = .ok settings := by
  induction environment with
  | nil => rfl
  | cons v environment ih =>
    have hadd : add settings v = .ok settings := by
      rw [add, key?_of_unmarked (h v List.mem_cons_self)]
    rw [List.foldlM_cons, hadd]
    exact ih fun w hw => h w (List.mem_cons_of_mem _ hw)

/-- Variables without the marker set nothing. -/
theorem settings_unmarked {environment : List (String × String)}
    (h : ∀ v ∈ environment, isMarked v.1 = false) : settings environment = .ok (.table []) :=
  foldlM_add_unmarked _ fun v hv => h v (List.mem_mergeSort.1 hv)

end Override

namespace Config

variable {c : Config} {d : Disk} {root : Path} {environment : List (String × String)}

theorem fileSettings?_toToml (h : c.scan.concurrency < 2 ^ 63) {file : Path}
    (hfile : d.fileAt? file = some c.toToml.toUTF8) :
    fileSettings? d (some file) = some c.toValue := by
  have htext : String.fromUTF8? c.toToml.toUTF8 = some c.toToml := Bytes.fromUTF8?_toByteArray _
  rw [fileSettings?, Disk.searchFile?_of_fileAt? hfile]
  simp only [htext, Option.bind_some, read?_toToml h]

theorem load_of_fileAt? (h : c.scan.concurrency < 2 ^ 63)
    (henv : ∀ v ∈ environment, Override.isMarked v.1 = false)
    (hfile : d.fileAt? (root.join ⟨"rehome.toml"⟩) = some c.toToml.toUTF8) :
    load d environment root none = c.validate := by
  have hfirst : file? d root none = .ok (some (root.join ⟨"rehome.toml"⟩)) := by
    simp [file?, fileNames, Disk.has_of_fileAt? hfile]
  simp only [load, hfirst, Override.settings_unmarked henv, bind, Except.bind,
    fileSettings?_toToml h hfile]
  exact ofLayers_toValue h

theorem mapError_eq_ok_iff {ε ε' α : Type} {x : Except ε α} {f : ε → ε'} {a : α} :
    x.mapError f = .ok a ↔ x = .ok a := by
  cases x <;> simp [Except.mapError]

/-- Saving makes the folders on the way, and then writes. -/
theorem save_eq_ok_iff {file folder : Path} (hparent : file.parent? = some folder) {d' : Disk} :
    c.save d file = .ok d' ↔
      ∃ e, d.makeFolders folder = .ok e ∧ e.write file c.toToml.toUTF8 = .ok d' := by
  rw [save, hparent]
  simp only [Disk.bind_eq_ok_iff, mapError_eq_ok_iff]

theorem fileAt?_of_save {n : String} (hn : IsName n) {d' : Disk}
    (h : c.save d (root.join ⟨n⟩) = .ok d') :
    d'.fileAt? (root.join ⟨n⟩) = some c.toToml.toUTF8 := by
  obtain ⟨e, -, hwrite⟩ := (save_eq_ok_iff (root.parent?_join_name hn)).1 h
  exact Disk.fileAt?_of_write hwrite

/-- Saving goes through when the folders of the root can be made, and no folder
has the file's place. -/
theorem exists_save {n : String} (c : Config) (hn : IsName n)
    (hshort : n.utf8ByteSize ≤ Disk.maxNameLength) {base : Path} {l : Location}
    {names : List String} (hway : d.FreeWay root base l names)
    (hflaw : Disk.flaw? (root.join ⟨n⟩) = none)
    (hfree : d.entry? (l ++ names ++ [n]) ≠ some .folder) :
    ∃ d', c.save d (root.join ⟨n⟩) = .ok d' := by
  have hroot : root.text ≠ "" → Disk.flaw? root = none := fun hne =>
    Disk.flaw?_of_sublist (root.prefix_join (Path.isAbsolute_name hn)).sublist hne hflaw
  obtain ⟨e, hfolders, hwalk, hadds⟩ := hway.exists_makeFolders hroot
  have hfolder : e.entry? (l ++ names) = some .folder :=
    (hadds.freeWay hway).entry_eq (by simp [hadds.entry])
  rw [← hadds.entry_below] at hfree
  have hplace := Disk.place_join_name hn hshort hwalk hfolder hflaw hfree
  have hwrite : e.write (root.join ⟨n⟩) c.toToml.toUTF8 = .ok _ :=
    Disk.write_eq_ok_iff.2 ⟨_, n.toList, hplace, rfl⟩
  exact ⟨_, (save_eq_ok_iff (root.parent?_join_name hn)).2 ⟨e, hfolders, hwrite⟩⟩

/-- A configuration that passes the check comes back from the file it is saved
to, whatever characters its texts have. Saving goes through wherever the root
is a folder, or leads on by names from one and no file is in the way; then the
missing folders are made. The path must not be too long, and no folder may have
the file's place. -/
theorem load_saved (hvalid : c.validate = .ok c) (hcount : c.scan.concurrency < 2 ^ 63)
    (henv : ∀ v ∈ environment, Override.isMarked v.1 = false) (d : Disk) (root : Path) :
    (∀ d', c.save d (root.join ⟨"rehome.toml"⟩) = .ok d' →
      load d' environment root none = .ok c) ∧
    (d.isFolder root → Disk.flaw? (root.join ⟨"rehome.toml"⟩) = none →
      d.isFolder (root.join ⟨"rehome.toml"⟩) = false →
      ∃ d', c.save d (root.join ⟨"rehome.toml"⟩) = .ok d' ∧
        load d' environment root none = .ok c) ∧
    ∀ base l names, d.FreeWay root base l names →
      Disk.flaw? (root.join ⟨"rehome.toml"⟩) = none →
      d.entry? (l ++ names ++ ["rehome.toml"]) ≠ some .folder →
      ∃ d', c.save d (root.join ⟨"rehome.toml"⟩) = .ok d' ∧
        load d' environment root none = .ok c := by
  have hname : IsName "rehome.toml" := by decide
  have hload : ∀ d', c.save d (root.join ⟨"rehome.toml"⟩) = .ok d' →
      load d' environment root none = .ok c := by
    intro d' hsave
    rw [load_of_fileAt? hcount henv (fileAt?_of_save hname hsave), hvalid]
  have hmade : ∀ base l names, d.FreeWay root base l names →
      Disk.flaw? (root.join ⟨"rehome.toml"⟩) = none →
      d.entry? (l ++ names ++ ["rehome.toml"]) ≠ some .folder →
      ∃ d', c.save d (root.join ⟨"rehome.toml"⟩) = .ok d' ∧
        load d' environment root none = .ok c := by
    intro base l names hway hflaw hfree
    obtain ⟨d', hsave⟩ := exists_save c hname (by decide) hway hflaw hfree
    exact ⟨d', hsave, hload d' hsave⟩
  refine ⟨hload, fun hfolder hflaw hfree => ?_, hmade⟩
  obtain ⟨l, hway⟩ := Disk.exists_freeWay_of_isFolder hfolder
  refine hmade root l [] hway hflaw fun hbelow => ?_
  rw [List.append_nil] at hbelow
  obtain ⟨_, hresolve, -⟩ := Disk.exists_resolve_of_isFolder hfolder
  have hne := (Disk.flaw?_eq_none_iff.1 (Disk.walk_of_resolve hresolve).1).1
  have hjoin := Disk.isFolder_join_name hname (by decide) hne hway.way hway.folder hflaw hbelow
  exact Bool.false_ne_true (hfree.symm.trans hjoin)

/-- Settings with texts for each form, keys in quotes and without, and arrays of
each layout. -/
def everyForm : Config where
  layout := { componentsDir := ⟨"it's"⟩, aliasPrefix := "\"@\\'\"/" }
  scan :=
    { roots := [⟨""⟩, ⟨"a\tb\n\r"⟩], extensions := ["'''\"\"\"\"\n"], exclude := []
      concurrency := 9223372036854775807 }
  policy := .aliasOutside
  registry :=
    { usePreset := true
      folders := .ofRows [("", []), ("a.b", ["\n", "é"]), ("'\"", ["\x00"]), ("a-b", ["\\d"])] }
  logging := { level := "debug", format := .json }

theorem load_saved_every_form :
    (∃ d', everyForm.save { entries := [(["work"], .folder)] } ⟨"/work/rehome.toml"⟩ = .ok d' ∧
      load d' [("PATH", "/bin"), ("rehome_", "1")] ⟨"/work"⟩ none = .ok everyForm) ∧
    ∃ d', everyForm.save { entries := [(["work"], .folder)] }
        ⟨"/work/.//new/deep/rehome.toml"⟩ = .ok d' ∧
      load d' [] ⟨"/work/.//new/deep/"⟩ none = .ok everyForm :=
  ⟨(load_saved rfl (by decide) (by decide) _ ⟨"/work"⟩).2.1
    (by decide +kernel) (by decide +kernel) (by decide +kernel),
  (load_saved rfl (by decide) (by decide) _ ⟨"/work/.//new/deep/"⟩).2.2 ⟨"/work"⟩ ["work"]
    ["new", "deep"] ⟨by decide +kernel, rfl, rfl, by decide, by decide⟩ (by decide +kernel)
    nofun⟩

end Config

end Relocate
