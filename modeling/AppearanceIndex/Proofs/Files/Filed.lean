import AppearanceIndex.Proofs.Files.Changes

/-!
# Directories that are filled

A directory into which files were written one after another holds those files and, besides
directories, nothing else (`FileStore.Filed`). It stays so while directories are made anywhere and
files are written elsewhere, and each file can be read back.
-/

namespace AppearanceIndex.FileStore

/-- What was written into a directory, by name, since the store was `start`. -/
structure Filed (directory : Path) (start files : FileStore) (entries : List (String × Bytes)) :
    Prop where
  begun : start.Extends files
  made : entries ≠ [] → files.locate directory = .ok (start.target directory) ∧
    files.node? (start.target directory) = some .directory
  located : ∀ entry ∈ entries, files.locate (directory.entry entry.1) =
    .ok (start.target directory ++ [entry.1]) ∧ meansDirectory (directory.entry entry.1) = false
  file : ∀ entry ∈ entries,
    files.node? (start.target directory ++ [entry.1]) = some (.file entry.2)
  known : ∀ name node, files.node? (start.target directory ++ [name]) = some node →
    node = .directory ∨ ∃ bs, (name, bs) ∈ entries ∧ node = .file bs

variable {directory path : Path} {start files t : FileStore} {entries : List (String × Bytes)}

theorem filed_nil
    (h : ∀ name, start.node? (start.target directory ++ [name]) = none) :
    Filed directory start start [] where
  begun := .refl start
  made := fun hne => absurd rfl hne
  located := by simp
  file := by simp
  known := fun name node hnode => by
    rw [h name] at hnode
    cases hnode

theorem Filed.target_eq (h : Filed directory start files entries) (path : Path) :
    files.target path = start.target path :=
  h.begun.target_eq path

theorem Filed.grows (h : Filed directory start files entries) (hg : files.Grows t) :
    Filed directory start t entries where
  begun := h.begun.trans hg.extends
  made := fun hne => ⟨hg.extends.locate (h.made hne).1, hg.extends.directory _ (h.made hne).2⟩
  located := fun entry hentry =>
    ⟨hg.extends.locate (h.located entry hentry).1, (h.located entry hentry).2⟩
  file := fun entry hentry => hg.node_some (h.file entry hentry)
  known := fun name node hnode => by
    rcases hg.eq_directory hnode with hold | hdirectory
    · exact h.known name node hold
    · exact .inl hdirectory

/-- A file that is written elsewhere changes nothing here. -/
theorem Filed.gains (h : Filed directory start files entries) {place : Place} {bs : Bytes}
    (hg : files.Gains t place bs) (hp : ∀ name, start.target directory ++ [name] ≠ place) :
    Filed directory start t entries := by
  have hsame : ∀ name, t.node? (start.target directory ++ [name]) =
      files.node? (start.target directory ++ [name]) := by
    intro name
    rw [hg.node, if_neg (hp name)]
  refine ⟨h.begun.trans hg.extends, fun hne => ?_, fun entry hentry => ?_, fun entry hentry => ?_,
    fun name node hnode => ?_⟩
  · exact ⟨hg.extends.locate (h.made hne).1, hg.extends.directory _ (h.made hne).2⟩
  · exact ⟨hg.extends.locate (h.located entry hentry).1, (h.located entry hentry).2⟩
  · rw [hsame]
    exact h.file entry hentry
  · rw [hsame] at hnode
    exact h.known name node hnode

/-- Nothing in the directory refuses writes, so a file that is written there is one. -/
theorem Filed.write_eq_ok (h : Filed directory start files entries) {name : String} {bs : Bytes}
    (hn : FileName.Plain name) (hw : files.write (directory.entry name) bs = .ok t) :
    files.Gains t (start.target directory ++ [name]) bs ∧
      files.locate (directory.entry name) = .ok (start.target directory ++ [name]) ∧
      meansDirectory (directory.entry name) = false := by
  have htarget : files.target (directory.entry name) = start.target directory ++ [name] := by
    rw [target_entry hn, h.target_eq]
  have hwritten := FileStore.write_eq_ok hw (by
    rw [htarget]
    exact fun node hnode => (h.known name node hnode).imp_right fun ⟨bs, _, hfile⟩ => ⟨bs, hfile⟩)
  rw [htarget] at hwritten
  exact hwritten

/-- A new file is one more. -/
theorem Filed.write (h : Filed directory start files entries) {name : String} {bs : Bytes}
    (hn : FileName.Plain name) (hnew : name ∉ entries.map Prod.fst)
    (hmade : files.locate directory = .ok (start.target directory) ∧
      files.node? (start.target directory) = some .directory)
    (hw : files.write (directory.entry name) bs = .ok t) :
    Filed directory start t (entries ++ [(name, bs)]) := by
  obtain ⟨hg, hlocate, hmeans⟩ := h.write_eq_ok hn hw
  have hne : ∀ entry ∈ entries, start.target directory ++ [entry.1] ≠
      start.target directory ++ [name] := by
    intro entry hentry heq
    have hsame : entry.1 = name := by simpa using heq
    exact hnew (hsame ▸ List.mem_map_of_mem hentry)
  refine ⟨h.begun.trans hg.extends, fun _ => ?_, fun entry hentry => ?_, fun entry hentry => ?_,
    fun other node hnode => ?_⟩
  · exact ⟨hg.extends.locate hmade.1, hg.extends.directory _ hmade.2⟩
  · rcases List.mem_append.mp hentry with hentry | hentry
    · exact ⟨hg.extends.locate (h.located entry hentry).1, (h.located entry hentry).2⟩
    · rw [List.mem_singleton.mp hentry]
      exact ⟨hg.extends.locate hlocate, hmeans⟩
  · rw [hg.node]
    rcases List.mem_append.mp hentry with hentry | hentry
    · rw [if_neg (hne entry hentry)]
      exact h.file entry hentry
    · rw [List.mem_singleton.mp hentry, if_pos rfl]
  · rw [hg.node] at hnode
    by_cases heq : start.target directory ++ [other] = start.target directory ++ [name]
    · have hsame : other = name := by simpa using heq
      subst hsame
      rw [if_pos rfl] at hnode
      exact .inr ⟨bs, by simp, (Option.some.inj hnode).symm⟩
    · rw [if_neg heq] at hnode
      refine (h.known other node hnode).imp_right ?_
      rintro ⟨old, hold, hfile⟩
      exact ⟨old, List.mem_append_left _ hold, hfile⟩

/-! ## Reading back -/

theorem Filed.openRead (h : Filed directory start files entries) {name : String} {bs : Bytes}
    (he : (name, bs) ∈ entries) : files.openRead (directory.entry name) = .ok (.content bs) :=
  openRead_of_file (h.located _ he).1 (h.file _ he) (h.located _ he).2

theorem Filed.contentOf (h : Filed directory start files entries) {name : String} {bs : Bytes}
    (he : (name, bs) ∈ entries) : files.contentOf (directory.entry name) = .ok bs :=
  contentOf_of_openRead (h.openRead he)

/-- The regular files in the directory are those that were written. -/
theorem Filed.readDirectory (h : Filed directory start files entries) (hne : entries ≠ []) :
    ∃ listed, files.readDirectory directory = .ok listed ∧
      (∀ entry ∈ entries, (entry.1, .file entry.2) ∈ listed) ∧
      ∀ name node, (name, node) ∈ listed →
        node = .directory ∨ ∃ bs, (name, bs) ∈ entries ∧ node = .file bs := by
  obtain ⟨hlocate, hnode⟩ := h.made hne
  obtain ⟨listed, hread, hmem⟩ := readDirectory_of_locate hlocate hnode
  refine ⟨listed, hread, fun entry hentry => ?_, fun name node hlisted => ?_⟩
  · rw [hmem]
    exact h.file entry hentry
  · rw [hmem] at hlisted
    exact h.known name node hlisted

end AppearanceIndex.FileStore
