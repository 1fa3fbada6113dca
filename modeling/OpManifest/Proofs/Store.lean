import OpManifest.Manifest.Store
import OpManifest.Proofs.FileTree

/-!
# Replacing a published file

A manifest file is written beside its place and moved there.
`replace_of_ok` and `replace_of_error` say what this does to a tree: a success
changes the content of the file and of nothing else, and a failure changes no
content at all, but for the temporary file.  `publish_of_ok` and
`publish_of_error` follow the two replacements of a publication; the second one
never disturbs the first, because the two names of a manifest and of its
temporary file differ, wherever the output directory lies.
-/

namespace OpManifest

open FileTree

/-- The name of the file in which a manifest is written first. -/
def temporaryFileName : String := ".application-manifest.json.tmp"

theorem isNodeName_manifestFileName : IsNodeName manifestFileName := by decide

theorem isNodeName_temporaryFileName : IsNodeName temporaryFileName := by decide

/-- The place of a temporary file. -/
def IsTemporary (place : Place) : Prop := place.getLast? = some temporaryFileName

/-- The temporary file of a manifest stands beside it. -/
theorem temporary_join (base : Path) :
    (base.join ⟨manifestFileName⟩).temporary = base.join ⟨temporaryFileName⟩ := by
  have hstem : (Path.splitExtension manifestFileName).1 = ".application-manifest" := by
    decide +kernel
  have hname : manifestFileName.toList = ".application-manifest".toList ++ ".json".toList := by
    decide
  have hnot : Path.isAbsolute ⟨".application-manifest" ++ "." ++ "json.tmp"⟩ = false := by decide
  have hwith := Path.withExtension_join base isNodeName_manifestFileName.1 "json.tmp" hstem hname
    hnot
  have htemporary : ".application-manifest" ++ "." ++ "json.tmp" = temporaryFileName := by decide
  rw [Path.temporary, hwith, htemporary]

theorem manifest_ne_temporary (a b : Place) :
    a ++ [manifestFileName] ≠ b ++ [temporaryFileName] := by
  intro h
  have hnames := (List.append_inj' h rfl).2
  exact absurd (List.singleton_inj.1 hnames) (by decide)

theorem not_isTemporary_manifest (directory : Place) :
    ¬IsTemporary (directory ++ [manifestFileName]) := by
  simp only [IsTemporary, List.getLast?_append, List.getLast?_singleton, Option.some_or,
    Option.some.injEq]
  decide

namespace FileTree

theorem createParent_editedAt (tree : FileTree) (path : Path) :
    EditedAt (fun _ => False) tree (tree.createParent path).1 := by
  unfold createParent
  split
  · exact .refl tree
  · rename_i parent _
    have hedited := createDirectories_editedAt tree parent
    split <;> simp_all

/-- The three steps of a replacement, and where it can stop. -/
theorem replace_cases (tree : FileTree) (path : Path) (content : ByteArray) :
    (∃ made e, tree.createParent path = (made, .error e) ∧
      tree.replace path content = (made, .error e)) ∨
    ∃ made, tree.createParent path = (made, .ok ()) ∧
      ((∃ e, made.write path.temporary content = .error e ∧
          tree.replace path content = (made, .error (.file path.temporary))) ∨
        ∃ written, made.write path.temporary content = .ok written ∧
          ((∃ e, written.rename path.temporary path = .error e ∧
              tree.replace path content = (written, .error (.file path))) ∨
            ∃ moved, written.rename path.temporary path = .ok moved ∧
              tree.replace path content = (moved, .ok ()))) := by
  unfold replace
  rcases hmade : tree.createParent path with ⟨made, e | ⟨⟩⟩
  · exact .inl ⟨made, e, rfl, rfl⟩
  · refine .inr ⟨made, rfl, ?_⟩
    cases hwrite : made.write path.temporary content with
    | error e => exact .inl ⟨e, rfl, by simp only [hwrite]⟩
    | ok written =>
      refine .inr ⟨written, rfl, ?_⟩
      cases hrename : written.rename path.temporary path with
      | error e => exact .inl ⟨e, rfl, by simp only [hwrite, hrename]⟩
      | ok moved => exact .inr ⟨moved, rfl, by simp only [hwrite, hrename]⟩

/-- Writing the temporary file changes no other file, and the directory of the
manifest is the one that the temporary file stands in. -/
theorem write_temporary {made written : FileTree} {base : Path} {content : ByteArray}
    (h : made.write (base.join ⟨manifestFileName⟩).temporary content = .ok written) :
    ∃ directory, written.enclosing base = .ok directory ∧
      written.node? directory = some .directory ∧
      written.content? (directory ++ [temporaryFileName]) = some content ∧
      EditedAt (· = directory ++ [temporaryFileName]) made written := by
  rw [temporary_join] at h
  obtain ⟨place, hplace, hfree, rfl⟩ := write_eq_ok h
  have hput : EditedAt (· = place) made (made.put place (.file content)) :=
    put_editedAt (fun hw => hw.isPlace_resolve hplace) hfree
  have hcontent : (made.put place (.file content)).content? place = some content :=
    content?_put_self hfree
  obtain ⟨directory, hbase, hdirectory, rfl⟩ :=
    (resolve_join_eq_ok isNodeName_temporaryFileName).1 hplace
  exact ⟨directory, enclosing_kept hput.kept hbase, hput.kept.directory _ hdirectory, hcontent,
    hput⟩

/-- Moving the temporary file to its place changes these two places only. -/
theorem rename_temporary {written moved : FileTree} {base : Path} {directory : Place}
    {content : ByteArray} (hbase : written.enclosing base = .ok directory)
    (hcontent : written.content? (directory ++ [temporaryFileName]) = some content)
    (h : written.rename (base.join ⟨manifestFileName⟩).temporary (base.join ⟨manifestFileName⟩) =
      .ok moved) :
    moved.content? (directory ++ [manifestFileName]) = some content ∧
      moved.content? (directory ++ [temporaryFileName]) = none ∧
      EditedAt (fun place => place = directory ++ [manifestFileName] ∨
        place = directory ++ [temporaryFileName]) written moved := by
  rw [temporary_join] at h
  obtain ⟨old, new, read, hold, hread, hnew, hfree, rfl⟩ := rename_eq_ok h
  obtain ⟨_, hold', -, rfl⟩ := (resolve_join_eq_ok isNodeName_temporaryFileName).1 hold
  obtain rfl := Except.ok.inj (hbase.symm.trans hold')
  obtain ⟨_, hnew', hdirectory, rfl⟩ := (resolve_join_eq_ok isNodeName_manifestFileName).1 hnew
  obtain rfl := Except.ok.inj (hbase.symm.trans hnew')
  obtain rfl := Option.some.inj (hcontent.symm.trans hread)
  have herase := erase_editedAt hread
  have hfree' : (written.erase (directory ++ [temporaryFileName])).node?
      (directory ++ [manifestFileName]) ≠ some .directory := by
    rw [node?_erase written _ (by simp), if_neg (manifest_ne_temporary directory directory).symm]
    exact hfree
  have hplace : (written.erase (directory ++ [temporaryFileName])).IsPlace
      (directory ++ [manifestFileName]) :=
    .inr ⟨directory, manifestFileName, rfl, herase.kept.directory _ hdirectory,
      isNodeName_manifestFileName⟩
  have hput : EditedAt (· = directory ++ [manifestFileName]) _
      ((written.erase (directory ++ [temporaryFileName])).put
        (directory ++ [manifestFileName]) (.file content)) :=
    put_editedAt (fun _ => hplace) hfree'
  refine ⟨content?_put_self hfree', ?_, ?_⟩
  · rw [content?_put (by simp) (manifest_ne_temporary directory directory)]
    exact content?_erase_self hread
  · exact (herase.mono fun place h => .inr h).trans (hput.mono fun place h => .inl h)

/-- A manifest file is replaced where it lies: it holds the new content, nothing is
left of the temporary file, and no other file has changed. -/
theorem replace_of_ok {tree after : FileTree} {base : Path} {content : ByteArray}
    (h : tree.replace (base.join ⟨manifestFileName⟩) content = (after, .ok ())) :
    ∃ directory, after.enclosing base = .ok directory ∧
      after.node? directory = some .directory ∧
      after.content? (directory ++ [manifestFileName]) = some content ∧
      after.content? (directory ++ [temporaryFileName]) = none ∧
      EditedAt (fun place => place = directory ++ [manifestFileName] ∨
        place = directory ++ [temporaryFileName]) tree after := by
  obtain ⟨made, e, -, hstop⟩ | ⟨made, hmade, ⟨e, -, hstop⟩ | ⟨written, hwrite,
    ⟨e, -, hstop⟩ | ⟨moved, hrename, hmoved⟩⟩⟩ :=
    replace_cases tree (base.join ⟨manifestFileName⟩) content
  · simp [hstop] at h
  · simp [hstop] at h
  · simp [hstop] at h
  · obtain rfl : moved = after := by simpa [hmoved] using h
    have hparent := createParent_editedAt tree (base.join ⟨manifestFileName⟩)
    rw [hmade] at hparent
    obtain ⟨directory, hbase, hdirectory, hcontent, hwritten⟩ := write_temporary hwrite
    obtain ⟨hnew, hold, hmove⟩ := rename_temporary hbase hcontent hrename
    exact ⟨directory, enclosing_kept hmove.kept hbase, hmove.kept.directory _ hdirectory, hnew,
      hold, ((hparent.mono fun _ h => h.elim).trans (hwritten.mono fun _ h => .inr h)).trans hmove⟩

theorem isTemporary_append (directory : Place) :
    IsTemporary (directory ++ [temporaryFileName]) := by
  simp [IsTemporary]

/-- Where a replacement stops, at most the temporary file has changed. -/
theorem replace_of_error {tree after : FileTree} {base : Path} {content : ByteArray}
    {e : ManifestError}
    (h : tree.replace (base.join ⟨manifestFileName⟩) content = (after, .error e)) :
    EditedAt IsTemporary tree after := by
  have hparent := (createParent_editedAt tree (base.join ⟨manifestFileName⟩)).mono
    fun place (h : False) => (h.elim : IsTemporary place)
  obtain ⟨made, e', hmade, hstop⟩ | ⟨made, hmade, ⟨e', -, hstop⟩ | ⟨written, hwrite,
    ⟨e', -, hstop⟩ | ⟨moved, -, hmoved⟩⟩⟩ :=
    replace_cases tree (base.join ⟨manifestFileName⟩) content
  · rw [hmade] at hparent
    obtain rfl : made = after := congrArg Prod.fst (hstop.symm.trans h)
    exact hparent
  · rw [hmade] at hparent
    obtain rfl : made = after := congrArg Prod.fst (hstop.symm.trans h)
    exact hparent
  · rw [hmade] at hparent
    obtain rfl : written = after := congrArg Prod.fst (hstop.symm.trans h)
    obtain ⟨directory, -, -, -, hwritten⟩ := write_temporary hwrite
    exact hparent.trans (hwritten.mono fun place hplace => hplace ▸ isTemporary_append directory)
  · simp [hmoved] at h

/-- A content that is written at one path and moved to another is put at the place of
the second one and gone from that of the first. -/
theorem moved_of_write {made written moved : FileTree} {source target : Path}
    {content : ByteArray} (hwrite : made.write source content = .ok written)
    (hrename : written.rename source target = .ok moved) :
    ∃ old new, made.resolve source = .ok old ∧ made.node? old ≠ some .directory ∧
      written = made.put old (.file content) ∧ written.resolve target = .ok new ∧
      written.node? new ≠ some .directory ∧
      moved = (written.erase old).put new (.file content) := by
  obtain ⟨old, hold, hfree, rfl⟩ := write_eq_ok hwrite
  obtain ⟨place, new, found, hplace, hread, hnew, hfreeNew, rfl⟩ := rename_eq_ok hrename
  -- the file is where it was written, so it holds the content
  have hput : EditedAt (· = old) made (made.put old (.file content)) :=
    put_editedAt (fun hw => hw.isPlace_resolve hold) hfree
  obtain rfl := Except.ok.inj (hplace.symm.trans (resolve_kept hput.kept hold))
  obtain rfl := Option.some.inj (hread.symm.trans (content?_put_self hfree))
  exact ⟨place, new, hold, hfree, rfl, hnew, hfreeNew, rfl⟩

/-- A file that is no directory and is found stays so while another one is moved to
its place. -/
theorem erase_put_editedAt {tree : FileTree} {target : Path} {old new : Place}
    {content : ByteArray} (hold : tree.content? old = some content)
    (hnew : tree.resolve target = .ok new) (hfree : tree.node? new ≠ some .directory) :
    (tree.erase old).node? new ≠ some .directory ∧
      EditedAt (fun place => place = new ∨ place = old) tree
        ((tree.erase old).put new (.file content)) := by
  have hne : old ≠ [] := by
    rintro rfl
    simp [content?_of_directory] at hold
  have herase := erase_editedAt hold
  have hfreeErased : (tree.erase old).node? new ≠ some .directory := by
    rw [node?_erase _ _ hne]
    split
    · simp
    · exact hfree
  have hput : EditedAt (· = new) _ ((tree.erase old).put new (.file content)) :=
    put_editedAt (fun hw => hw.isPlace_resolve (resolve_kept herase.kept hnew)) hfreeErased
  exact ⟨hfreeErased, (herase.mono fun _ => .inr).trans (hput.mono fun _ => .inl)⟩

/-- A file that was replaced holds the new content, whatever it is called. -/
theorem readBytes_of_replace {tree after : FileTree} {path : Path} {content : ByteArray}
    (h : tree.replace path content = (after, .ok ())) : after.readBytes path = .ok content := by
  obtain ⟨made, e, -, hstop⟩ | ⟨made, -, ⟨e, -, hstop⟩ | ⟨written, hwrite,
    ⟨e, -, hstop⟩ | ⟨moved, hrename, hmoved⟩⟩⟩ := replace_cases tree path content
  · simp [hstop] at h
  · simp [hstop] at h
  · simp [hstop] at h
  · obtain rfl : moved = after := by simpa [hmoved] using h
    obtain ⟨old, new, -, hfree, rfl, hnew, hfreeNew, rfl⟩ := moved_of_write hwrite hrename
    obtain ⟨hfreeErased, hedited⟩ :=
      erase_put_editedAt (content?_put_self hfree) hnew hfreeNew
    exact readBytes_eq_ok.2
      ⟨new, resolve_kept hedited.kept hnew, content?_put_self hfreeErased⟩

end FileTree

namespace Manifest

/-! ## Publication -/

/-- The place of a manifest or of its temporary file. -/
def IsOutput (place : Place) : Prop :=
  place.getLast? = some manifestFileName ∨ IsTemporary place

/-- A manifest that is saved is read back, and nothing but it and its temporary
file has changed. -/
theorem save_of_ok {manifest : Manifest} {tree after : FileTree} {base : Path}
    (h : manifest.save tree (base.join ⟨manifestFileName⟩) = (after, .ok ())) :
    ∃ directory, after.resolve (base.join ⟨manifestFileName⟩) =
        .ok (directory ++ [manifestFileName]) ∧
      after.content? (directory ++ [manifestFileName]) = some manifest.text.toUTF8 ∧
      EditedAt (fun place => place = directory ++ [manifestFileName] ∨ IsTemporary place)
        tree after := by
  obtain ⟨directory, hbase, hdirectory, hcontent, -, hedited⟩ := replace_of_ok h
  refine ⟨directory, ?_, hcontent, hedited.mono fun place hplace => ?_⟩
  · exact (resolve_join_eq_ok isNodeName_manifestFileName).2 ⟨directory, hbase, hdirectory, rfl⟩
  · rcases hplace with heq | rfl
    · exact .inl heq
    · exact .inr (isTemporary_append directory)

/-- What is saved in the root stays there while the same manifest is saved
elsewhere: if the two places are one, the same text is written again. -/
theorem readBytes_of_save {manifest : Manifest} {tree after : FileTree} {base other : Path}
    (hread : tree.readBytes (base.join ⟨manifestFileName⟩) = .ok manifest.text.toUTF8)
    (h : manifest.save tree (other.join ⟨manifestFileName⟩) = (after, .ok ())) :
    after.readBytes (base.join ⟨manifestFileName⟩) = .ok manifest.text.toUTF8 := by
  obtain ⟨place, hplace, hcontent⟩ := readBytes_eq_ok.1 hread
  obtain ⟨second, -, hsecond, hedited⟩ := save_of_ok h
  refine readBytes_eq_ok.2
    ⟨place, resolve_join_kept hedited.kept isNodeName_manifestFileName hplace, ?_⟩
  obtain ⟨directory, -, -, rfl⟩ := (resolve_join_eq_ok isNodeName_manifestFileName).1 hplace
  by_cases hsame : directory = second
  · rw [hsame, hsecond]
  · rw [hedited.content _ ?_, hcontent]
    rintro (heq | htemporary)
    · exact hsame (List.append_inj' heq rfl).1
    · exact not_isTemporary_manifest directory htemporary

/-- A publication that succeeds leaves the text of the manifest in both files,
wherever the output directory lies. -/
theorem publish_of_ok {manifest : Manifest} {tree after : FileTree} {root outDir : Path}
    {written : Path × Path} (h : manifest.publish tree root outDir = (after, .ok written)) :
    written = targets root outDir ∧
      after.readBytes (root.join ⟨manifestFileName⟩) = .ok manifest.text.toUTF8 ∧
      after.readBytes (outDir.join ⟨manifestFileName⟩) = .ok manifest.text.toUTF8 ∧
      EditedAt IsOutput tree after := by
  have houtput {directory place : Place}
      (h : place = directory ++ [manifestFileName] ∨ IsTemporary place) : IsOutput place :=
    h.imp_left fun h => by simp [h]
  unfold publish targets at h
  rcases hfirst : manifest.save tree (root.join ⟨manifestFileName⟩) with ⟨between, e | ⟨⟩⟩
  · simp [hfirst] at h
  rcases hsecond : manifest.save between (outDir.join ⟨manifestFileName⟩) with ⟨last, e | ⟨⟩⟩
  · simp [hfirst, hsecond] at h
  obtain ⟨rfl, rfl⟩ : last = after ∧ targets root outDir = written := by
    simpa [hfirst, hsecond, targets] using h
  obtain ⟨one, hone, honeContent, honeEdited⟩ := save_of_ok hfirst
  obtain ⟨two, htwo, htwoContent, htwoEdited⟩ := save_of_ok hsecond
  have hread : between.readBytes (root.join ⟨manifestFileName⟩) = .ok manifest.text.toUTF8 :=
    readBytes_eq_ok.2 ⟨_, hone, honeContent⟩
  exact ⟨rfl, readBytes_of_save hread hsecond, readBytes_eq_ok.2 ⟨_, htwo, htwoContent⟩,
    (honeEdited.mono fun _ => houtput).trans (htwoEdited.mono fun _ => houtput)⟩

/-- The manifest can be saved in the root, but after that not in the output
directory. -/
def HalfPublished (manifest : Manifest) (tree : FileTree) (root outDir : Path) : Prop :=
  (manifest.save tree (root.join ⟨manifestFileName⟩)).2.isOk = true ∧
    (manifest.save (manifest.save tree (root.join ⟨manifestFileName⟩)).1
      (outDir.join ⟨manifestFileName⟩)).2.isOk = false
  deriving Decidable

/-- A publication that fails changes a file only if it fails at the second of
its two files: then the first one holds the new text. -/
theorem publish_of_error {manifest : Manifest} {tree after : FileTree} {root outDir : Path}
    {e : ManifestError} (h : manifest.publish tree root outDir = (after, .error e)) :
    (¬manifest.HalfPublished tree root outDir ∧ EditedAt IsTemporary tree after) ∨
      manifest.HalfPublished tree root outDir ∧
        ∃ place, after.resolve (root.join ⟨manifestFileName⟩) = .ok place ∧
          after.content? place = some manifest.text.toUTF8 ∧
          EditedAt (fun other => other = place ∨ IsTemporary other) tree after := by
  unfold publish targets at h
  rcases hfirst : manifest.save tree (root.join ⟨manifestFileName⟩) with ⟨between, e | ⟨⟩⟩
  · obtain ⟨rfl, -⟩ : between = after ∧ _ := by simpa [hfirst] using h
    refine .inl ⟨fun hhalf => ?_, replace_of_error hfirst⟩
    simp [HalfPublished, hfirst, Except.isOk, Except.toBool] at hhalf
  · rcases hsecond : manifest.save between (outDir.join ⟨manifestFileName⟩) with ⟨last, e | ⟨⟩⟩
    · obtain ⟨rfl, -⟩ : last = after ∧ _ := by simpa [hfirst, hsecond] using h
      obtain ⟨directory, hplace, hcontent, hedited⟩ := save_of_ok hfirst
      have hrest : EditedAt IsTemporary between last := replace_of_error hsecond
      refine .inr ⟨?_, directory ++ [manifestFileName],
        resolve_join_kept hrest.kept isNodeName_manifestFileName hplace, ?_, ?_⟩
      · simp [HalfPublished, hfirst, hsecond, Except.isOk, Except.toBool]
      · rw [hrest.content _ (not_isTemporary_manifest directory), hcontent]
      · exact hedited.trans (hrest.mono fun _ => .inr)
    · simp [hfirst, hsecond] at h

/-- Whether it succeeds or not, a publication touches the files of manifests
only. -/
theorem editedAt_of_error {manifest : Manifest} {tree after : FileTree} {root outDir : Path}
    {e : ManifestError} (h : manifest.publish tree root outDir = (after, .error e)) :
    EditedAt IsOutput tree after := by
  obtain ⟨-, hedited⟩ | ⟨-, place, hplace, -, hedited⟩ := publish_of_error h
  · exact hedited.mono fun _ => .inr
  · obtain ⟨directory, -, -, rfl⟩ := (resolve_join_eq_ok isNodeName_manifestFileName).1 hplace
    refine hedited.mono fun other hother => hother.imp_left ?_
    rintro rfl
    simp

end Manifest

end OpManifest
