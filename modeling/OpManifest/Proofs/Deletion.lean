import OpManifest.Proofs.Keys

/-!
# Deleted files

A file that was deleted cannot be read any more, so the change that tells of it
drops its entry, and the manifest is published with the operations of the other
files.  But the glob comes first: the configuration may have been read again
since the file was compiled, and if its glob does not select the file any more,
then the change is ignored and the entry stays (`deleted_entry`).
-/

namespace OpManifest

open FileTree

namespace FileTree

/-! ## Trees without a file -/

/-- A deletion leaves no content at the place of the file and keeps all other
content. -/
theorem content?_deleteFile (tree : FileTree) (p : Path) (other : Place) :
    (tree.deleteFile p).content? other =
      if tree.resolve p = .ok other then none else tree.content? other := by
  unfold deleteFile
  cases hresolve : tree.resolve p with
  | error e => simp
  | ok place =>
    simp only [Except.ok.injEq]
    cases hcontent : tree.content? place with
    | none =>
      by_cases hsame : place = other
      · simp [← hsame, hcontent]
      · simp [hsame]
    | some content =>
      by_cases hsame : place = other
      · simp [← hsame, content?_erase_self hcontent]
      · simp [hsame, (erase_editedAt hcontent).content other (Ne.symm hsame)]

/-- A deletion makes no directories. -/
theorem directoriesKept_of_deleteFile (tree : FileTree) (p : Path) :
    DirectoriesKept (tree.deleteFile p) tree := by
  unfold deleteFile
  split
  · exact .refl tree
  · rename_i place hplace
    split
    · rename_i hsome
      have hne : place ≠ [] := by
        intro hroot
        rw [hroot, content?_of_directory tree.node?_nil] at hsome
        cases hsome
      refine ⟨rfl, fun other hother => ?_⟩
      rw [node?_erase tree other hne] at hother
      split at hother
      · cases hother
      · exact hother
    · exact .refl tree

/-- A file that was deleted cannot be read. -/
theorem readBytes_deleteFile (tree : FileTree) (p : Path) (content : ByteArray) :
    (tree.deleteFile p).readBytes p ≠ .ok content := by
  intro hread
  obtain ⟨place, hplace, hcontent⟩ := readBytes_eq_ok.1 hread
  have hbefore := resolve_kept (tree.directoriesKept_of_deleteFile p) hplace
  rw [content?_deleteFile, if_pos hbefore] at hcontent
  cases hcontent

theorem content?_of_isFile {tree : FileTree} {place : Place}
    (hplace : ∀ name ∈ place, Path.IsName name) (h : tree.isFile (Path.ofPlace place) = true) :
    tree.content? place ≠ none := by
  unfold isFile at h
  split at h
  · rename_i content hlookup
    obtain ⟨last, hlast, hnode⟩ := lookup_eq_ok.1 hlookup
    by_cases hempty : place = []
    · rw [hempty, resolve_root] at hlast
      rw [← Except.ok.inj hlast, node?_nil] at hnode
      cases hnode
    · rw [place_of_resolve_ofPlace hplace hempty hlast] at hnode
      rw [content?_eq_some.2 hnode]
      simp
  · cases h

end FileTree

/-! ## The path of the configuration -/

theorem isFile_of_loadProject {tree : FileTree} {path : Path} {loaded : ProjectConfig × Glob}
    (h : loadProject tree path = .ok loaded) : tree.isFile path = true := by
  cases hfile : tree.isFile path with
  | true => rfl
  | false => simp [loadProject, ProjectConfig.load, hfile] at h

/-- A session keeps the path of its configuration as the path of a place. -/
theorem configPath_of_scanned {options : SessionOptions} {tree : FileTree} {session : Session}
    (hwell : tree.WellFormed) (h : Session.scanned options tree = .ok session) :
    ∃ place, (∀ name ∈ place, Path.IsName name) ∧ session.configPath = Path.ofPlace place := by
  unfold Session.scanned at h
  cases hroot : tree.canonical? options.root with
  | none => simp [hroot] at h
  | some root =>
    simp only [hroot] at h
    cases hload : loadProject tree (ProjectConfig.pathIn root options.configFile) with
    | error e => simp [hload] at h
    | ok loaded =>
      obtain ⟨config, glob⟩ := loaded
      simp only [hload] at h
      split at h
      · cases h
      · have hfile := isFile_of_loadProject hload
        unfold isFile at hfile
        split at hfile
        · rename_i content hlookup
          obtain ⟨place, hplace, hnode⟩ := lookup_eq_ok.1 hlookup
          have hcanonical : tree.canonical? (ProjectConfig.pathIn root options.configFile) =
              some (Path.ofPlace place) := by
            simp [canonical?, hplace, hnode]
          refine ⟨place, hwell.isName (by simp [hnode]), ?_⟩
          rw [← Except.ok.inj h]
          simp [hcanonical]
        · cases hfile

theorem configPath_of_start {options : SessionOptions} {tree : FileTree} {time : Nat}
    {session : Session} (hwell : tree.WellFormed)
    (hstart : (Session.start options tree time).result = .ok session)
    (hserve : session.context.command = .serve) :
    ∃ place, (∀ name ∈ place, Path.IsName name) ∧ session.configPath = Path.ofPlace place := by
  obtain ⟨first, written, hscanned, hpublish⟩ := Session.publish_of_start hstart hserve
  have hfirst : session = { first with manifest := session.manifest } := by
    simpa only [hpublish] using first.publish_fst tree time
  have hpath : session.configPath = first.configPath := by rw [hfirst]
  rw [hpath]
  exact configPath_of_scanned hwell hscanned

/-- If the path that has the components of the path of the configuration is
deleted, no configuration can be loaded. -/
theorem loadProject_deleteFile {tree : FileTree} {place : Place} {p : Path}
    (hwell : tree.WellFormed) (hplace : ∀ name ∈ place, Path.IsName name)
    (habsolute : p.isAbsolute = true) (hlast : p.steps.getLast? ≠ some ".")
    (hsame : p.components = (Path.ofPlace place).components) (loaded : ProjectConfig × Glob) :
    loadProject (tree.deleteFile p) (Path.ofPlace place) ≠ .ok loaded := by
  intro hload
  have hgone := content?_of_isFile hplace (isFile_of_loadProject hload)
  rw [content?_deleteFile] at hgone
  have hmoves : p.moves = place := by
    have hofName : place.map Path.Component.name = place.map Path.Component.ofName :=
      List.map_congr_left fun name hname => (Path.ofName_of_isName (hplace name hname)).symm
    rw [Path.components_of_isAbsolute habsolute,
      Path.components_of_spells (Path.spells_ofPlace place) hplace, hofName] at hsame
    exact List.map_injective_iff.2 Path.ofName_injective (List.cons.inj hsame).2
  by_cases hresolve : tree.resolve p = .ok place
  · rw [if_pos hresolve] at hgone
    exact hgone rfl
  · rw [if_neg hresolve] at hgone
    -- something stands at the place, so the path leads there
    have hnode : tree.node? p.moves ≠ none := by
      rw [hmoves]
      intro hnone
      exact hgone (content?_of_none hnone)
    apply hresolve
    rw [hwell.resolve_moves habsolute hlast hnode, hmoves]

/-- The same for a path below a directory: neither the directory nor a file in it
is read as the configuration after it was deleted. -/
theorem loadProject_deleteFile_below {tree : FileTree} {base place : Place} {key : Path}
    (hwell : tree.WellFormed) (hbase : ∀ name ∈ base, Path.IsName name)
    (hdirectory : tree.node? base = some .directory)
    (hplace : ∀ name ∈ place, Path.IsName name) (htrimmed : key.Trimmed)
    (hsame : (Path.ofPlace base).components ++ key.components = (Path.ofPlace place).components)
    (loaded : ProjectConfig × Glob) :
    loadProject (tree.deleteFile ((Path.ofPlace base).join key)) (Path.ofPlace place) ≠
      .ok loaded := by
  by_cases hempty : key.text = ""
  · -- the path is that of the directory
    have hnone : key.components = [] := by
      have htext : key = ⟨""⟩ := Path.ext_text (by rw [hempty])
      rw [htext]
      decide
    rw [hnone, List.append_nil, Path.components_of_spells (Path.spells_ofPlace base) hbase,
      Path.components_of_spells (Path.spells_ofPlace place) hplace] at hsame
    have hwhere : base = place :=
      List.map_injective_iff.2 Path.name_injective (List.cons.inj hsame).2
    intro hload
    have hgone := content?_of_isFile hplace (isFile_of_loadProject hload)
    rw [content?_deleteFile, ← hwhere, content?_of_directory hdirectory, ite_self] at hgone
    exact hgone rfl
  · obtain ⟨hne, hlast⟩ := htrimmed.getLast?_steps hempty
    refine loadProject_deleteFile hwell hplace
      (Path.isAbsolute_join_place htrimmed.isAbsolute hbase) ?_ ?_ loaded
    · rwa [Path.steps_join_of_ne _ htrimmed.isAbsolute hempty, List.getLast?_append_of_ne_nil _ hne]
    · rw [Path.components_join htrimmed.isAbsolute hbase, ← htrimmed.components, hsame]

/-! ## What is published -/

namespace Session

/-- A change that asks for a publication and succeeds has published the session
that it asked for. -/
theorem published_of_absorb {session ready : Session} {tree : FileTree} {path : Path} {time : Nat}
    {outcome : ChangeOutcome} (habsorb : session.absorb tree path = .ok (some ready))
    (h : (session.fileChanged tree path time).2.result = .ok outcome) :
    ∃ manifest, (session.fileChanged tree path time).1 = { ready with manifest := some manifest } ∧
      (session.fileChanged tree path time).1.Published
        (session.fileChanged tree path time).2.tree manifest := by
  have hrun := session.fileChanged_run tree path time
  rw [habsorb] at hrun
  generalize session.fileChanged tree path time = run at h hrun ⊢
  cases hrun with
  | published _ explain log extractions _ =>
    rcases hpublish : ready.publish tree time with ⟨last, after, e | written⟩
    · simp [hpublish, Except.map] at h
    · obtain ⟨manifest, hpublished⟩ := published_of_publish hpublish
      have hlast := ready.publish_fst tree time
      simp only [hpublish, hpublished.last] at hlast
      exact ⟨manifest, hlast, hpublished⟩

theorem not_ok_of_absorb_error {session : Session} {tree : FileTree} {path : Path} {time : Nat}
    {e : SessionError} (habsorb : session.absorb tree path = .error e) (outcome : ChangeOutcome) :
    (session.fileChanged tree path time).2.result ≠ .ok outcome := by
  have hrun := session.fileChanged_run tree path time
  rw [habsorb] at hrun
  generalize session.fileChanged tree path time = run at hrun ⊢
  cases hrun
  simp

end Session

/-- Work on a deleted file that has an entry drops the entry, if it succeeds. -/
theorem SourceCache.erase_of_processed {cache after : SourceCache} {extractor : Script.Extractor}
    {tree : FileTree} {root key : Path} {outcome : FileOutcome}
    (h : SourceCache.Processed cache extractor (tree.deleteFile (root.join key)) root key outcome
      after) (hentry : cache.entry? key ≠ none) : after = cache.erase key := by
  have hsource (text : String) :
      (tree.deleteFile (root.join key)).sourceText? root key ≠ some text := by
    intro htext
    obtain ⟨content, hcontent, -⟩ := Option.bind_eq_some_iff.1 htext
    unfold source? at hcontent
    cases hread : (tree.deleteFile (root.join key)).readBytes (root.join key) with
    | error e => simp [hread, Except.toOption] at hcontent
    | ok content => exact tree.readBytes_deleteFile _ content hread
  cases h with
  | skipped hnone => exact absurd hnone hentry
  | removed => rfl
  | unchanged text entry htext => exact absurd htext (hsource text)
  | updated text entry htext => exact absurd htext (hsource text)

namespace World

variable {world : World} {before : FileTree} {base : Place}

/-- The path of what has an entry lies below the root, and what is left of it
there is a trimmed path to the entry. -/
theorem StartedIn.stripPrefix?_of_entry (h : world.StartedIn before base) (events : List Event)
    {p : Path} (hentry : (world.run events).session.cache.entry? p ≠ none) :
    ∃ key, (world.session.root.join p).stripPrefix? world.session.root = some key ∧
      key.components = p.components ∧ key.Trimmed := by
  have hbase := isName_base h
  have hkey := (h.key_cases events hentry).1
  have hcomponents := Path.components_join hkey.isAbsolute hbase
  rw [← hkey.components, ← h.root] at hcomponents
  have hstarts : (world.session.root.join p).startsWith world.session.root = true := by
    simp [Path.startsWith, hcomponents]
  cases hstrip : (world.session.root.join p).stripPrefix? world.session.root with
  | none =>
    unfold Path.stripPrefix? at hstrip
    rw [if_pos hstarts] at hstrip
    split_ifs at hstrip
    split at hstrip
    · cases hstrip
    · cases hstrip
  | some key =>
    have hcut := hstrip
    rw [h.root] at hcut hcomponents
    obtain ⟨hsame, htrimmed⟩ := Path.components_of_stripPrefix? hbase hcut
    exact ⟨key, rfl, List.append_cancel_left (hsame.symm.trans hcomponents), htrimmed⟩

/-- What a change tells after the file of an entry was deleted. -/
theorem deleted_entry_of_session {session : Session} {tree : FileTree} {p key : Path} {time : Nat}
    {outcome : ChangeOutcome} (hserve : session.context.command = .serve)
    (hstrip : (session.root.join p).stripPrefix? session.root = some key)
    (hsame : key.components = p.components) (hkey : sourceKey session.root key = key)
    (hconfig : (session.root.join p).components = session.configPath.components →
      ∀ loaded, loadProject (tree.deleteFile (session.root.join key)) session.configPath ≠
        .ok loaded)
    (hentry : session.cache.entry? p ≠ none) :
    let after := tree.deleteFile (session.root.join key)
    let told := session.fileChanged after p time
    told.2.result = .ok outcome →
    (session.glob.selects key.text = true →
      told.1.cache.entry? p = none ∧ ∃ manifest, told.1.Published told.2.tree manifest ∧
        manifest.operations = (session.cache.erase p).operations) ∧
    (session.glob.selects key.text = false → told.1 = session) := by
  intro after told hok
  have hlocate : session.locate after p = session.root.join p := by
    unfold Path.stripPrefix? at hstrip
    split at hstrip
    · rename_i hstarts
      simp [Session.locate, hstarts]
    · cases hstrip
  by_cases hfile : (session.root.join p).components = session.configPath.components
  · -- the configuration was deleted, so it cannot be read again
    have hsubject : session.subject after p = .configuration := by
      simp [Session.subject, hlocate, hfile]
    have habsorb := Session.absorb_of_configuration hserve hsubject
    cases hload : loadProject after session.configPath with
    | error e =>
      rw [hload] at habsorb
      exact absurd hok (Session.not_ok_of_absorb_error habsorb outcome)
    | ok loaded => exact absurd hload (hconfig hfile loaded)
  · cases hselects : session.glob.selects key.text with
    | false =>
      have hsubject : session.subject after p = .nothing := by
        simp [Session.subject, hlocate, hfile, hstrip, hselects]
      refine ⟨fun h => absurd h (by simp), fun _ => ?_⟩
      show (session.fileChanged after p time).1 = session
      rw [fileChanged_fst, Session.absorb_of_nothing hserve hsubject]
    | true =>
      have hsubject : session.subject after p = .source key := by
        simp [Session.subject, hlocate, hfile, hstrip, hselects]
      have habsorb := Session.absorb_of_source hserve hsubject rfl
      refine ⟨fun _ => ?_, fun h => absurd h (by simp)⟩
      cases hresult : (session.cache.process session.extractor after session.root key).result with
      | error cause =>
        rw [hresult] at habsorb
        exact absurd hok (Session.not_ok_of_absorb_error habsorb outcome)
      | ok done =>
        rw [hresult] at habsorb
        obtain ⟨manifest, hready, hpublished⟩ := Session.published_of_absorb habsorb hok
        have hprocessed := SourceCache.processed_of_process hresult
        rw [hkey] at hprocessed
        have herase := SourceCache.erase_of_processed hprocessed <| by
          rwa [SourceCache.entry?, hsame]
        have hcache : told.1.cache = session.cache.erase p := by
          show (session.fileChanged after p time).1.cache = _
          rw [hready]
          show (session.cache.process session.extractor after session.root key).cache = _
          rw [herase, SourceCache.erase, hsame, SourceCache.erase]
        refine ⟨?_, manifest, hpublished, ?_⟩
        · rw [hcache, SourceCache.entry?, SourceCache.entries_erase, if_pos rfl]
        · rw [← hcache]
          exact hpublished.assembled.operations

/-- **Deleted files.**  However a server is run after its start, let a file that
has an entry be deleted and its change be told without an error.  If the glob in
force selects the file, then the entry is gone, and the manifest lists the
operations of the other files.  Otherwise the change does nothing. -/
theorem deleted_entry {options : SessionOptions} {tree : FileTree} {time later : Nat}
    {session : Session} (hwell : tree.WellFormed)
    (hstart : (Session.start options tree time).result = .ok session)
    (hserve : session.context.command = .serve) (events : List Event) {p : Path}
    {outcome : ChangeOutcome} :
    let last := run ⟨session, (Session.start options tree time).tree⟩ events
    let key := sourceKey session.root (session.root.join p)
    let gone := last.step (.deleted (session.root.join key))
    let told := gone.session.fileChanged gone.tree p later
    last.session.cache.entry? p ≠ none → told.2.result = .ok outcome →
    (last.session.glob.selects key.text = true →
      told.1.cache.entry? p = none ∧ ∃ manifest, told.1.Published told.2.tree manifest ∧
        manifest.operations = (last.session.cache.erase p).operations) ∧
    (last.session.glob.selects key.text = false → told.1 = last.session) := by
  intro last key gone told hentry hok
  obtain ⟨base, hstarted⟩ := startedIn_of_start hwell hstart hserve
  obtain ⟨place, hplace, hconfig⟩ := configPath_of_start hwell hstart hserve
  have hbase := isName_base hstarted
  have hproject := run_sameProject ⟨session, (Session.start options tree time).tree⟩ events
  have hroot : session.root = last.session.root := hproject.root.symm
  have hconfigPath : last.session.configPath = Path.ofPlace place :=
    hproject.configPath.trans hconfig
  have hcommand : last.session.context.command = .serve :=
    (congrArg BuildContext.command hproject.context).trans hserve
  have hdirectory : last.tree.node? base = some .directory := hstarted.directory_run events
  have hlast : last.tree.WellFormed := hstarted.wellFormed_run events
  obtain ⟨found, hstrip, hsame, htrimmed⟩ := hstarted.stripPrefix?_of_entry events hentry
  have hplain := hstarted.root
  clear_value last
  have hfound : key = found := by
    show ((session.root.join p).stripPrefix? session.root).getD _ = found
    rw [hstrip]
    rfl
  rw [← hfound] at hstrip hsame htrimmed
  clear_value key
  have hgone : gone = ⟨last.session, last.tree.deleteFile (last.session.root.join key)⟩ := by
    rw [← hroot]
    rfl
  have hkey : sourceKey last.session.root key = key := by
    rw [← hroot, hplain]
    exact sourceKey_of_trimmed hbase htrimmed
  simp only at hplain hstrip
  rw [hroot] at hstrip hplain
  have hconfig : (last.session.root.join p).components = last.session.configPath.components →
      ∀ loaded, loadProject (last.tree.deleteFile (last.session.root.join key))
        last.session.configPath ≠ .ok loaded := by
    intro hfile loaded
    rw [hplain] at hstrip hfile ⊢
    rw [hconfigPath] at hfile ⊢
    have hcut := (Path.components_of_stripPrefix? hbase hstrip).1
    exact loadProject_deleteFile_below hlast hbase hdirectory hplace htrimmed
      (hcut.symm.trans hfile) loaded
  clear_value gone
  subst hgone
  exact deleted_entry_of_session hcommand hstrip hsame hkey hconfig hentry hok

/-- The deleted source of a small project is gone. -/
theorem deleted_entry_in_sourceProject :
    ∃ session, (Session.start (Session.bareOptions .serve) sourceProject 0).result = .ok session ∧
      let world : World :=
        ⟨session, (Session.start (Session.bareOptions .serve) sourceProject 0).tree⟩
      let gone := world.step (.deleted (session.root.join ⟨"src/a.ts"⟩))
      let told := gone.session.fileChanged gone.tree ⟨"src/a.ts"⟩ 0
      session.cache.entry? ⟨"src/a.ts"⟩ ≠ none ∧ told.1.cache.entry? ⟨"src/a.ts"⟩ = none ∧
        ∃ manifest, told.1.Published told.2.tree manifest ∧ manifest.operations = [] := by
  have hfacts : (Session.start (Session.bareOptions .serve) sourceProject 0).result.toOption.any
      (fun session =>
        let world : World :=
          ⟨session, (Session.start (Session.bareOptions .serve) sourceProject 0).tree⟩
        let gone := world.step (.deleted (session.root.join ⟨"src/a.ts"⟩))
        session.context.command = .serve ∧
        session.cache.entry? ⟨"src/a.ts"⟩ ≠ none ∧
        sourceKey session.root (session.root.join ⟨"src/a.ts"⟩) = ⟨"src/a.ts"⟩ ∧
        session.glob.selects "src/a.ts" = true ∧
        (session.cache.erase ⟨"src/a.ts"⟩).operations = [] ∧
        (gone.session.fileChanged gone.tree ⟨"src/a.ts"⟩ 0).2.result.toOption.isSome) = true := by
    decide +kernel
  obtain ⟨session, hsession, hall⟩ := exists_ok_of_any hfacts
  obtain ⟨hserve, hentry, hkey, hselects, hnone, hok⟩ := of_decide_eq_true hall
  obtain ⟨outcome, hresult⟩ := Option.isSome_iff_exists.1 hok
  refine ⟨session, hsession, hentry, ?_⟩
  have hdeleted := (deleted_entry wellFormed_sourceProject hsession hserve [] hentry
    (by rw [hkey]; exact eq_ok_of_toOption hresult)).1
  rw [hkey] at hdeleted
  obtain ⟨hgone, manifest, hpublished, hoperations⟩ := hdeleted hselects
  exact ⟨hgone, manifest, hpublished, hoperations.trans hnone⟩

/-- Not every deleted file disappears: its change is ignored after a
configuration that does not select it was read. -/
theorem not_deleted_entry : ¬∀ (options : SessionOptions) (tree : FileTree) (time later : Nat)
    (session : Session) (events : List Event) (p : Path) (outcome : ChangeOutcome),
    tree.WellFormed → (Session.start options tree time).result = .ok session →
    session.context.command = .serve →
    let last := run ⟨session, (Session.start options tree time).tree⟩ events
    let gone := last.step (.deleted (session.root.join p))
    let told := gone.session.fileChanged gone.tree p later
    last.session.cache.entry? p ≠ none → told.2.result = .ok outcome →
    told.1.cache.entry? p = none := by
  intro hall
  have hfacts : (Session.start (Session.bareOptions .serve) sourceProject 0).result.toOption.any
      (fun session =>
        let last := run ⟨session,
          (Session.start (Session.bareOptions .serve) sourceProject 0).tree⟩
            [.saved ⟨"/p/toolgraph.toml"⟩ "name = \"x\"\ninclude = \"lib/*.ts\"\n".toUTF8,
              .changed ⟨"toolgraph.toml"⟩ 0]
        let gone := last.step (.deleted (session.root.join ⟨"src/a.ts"⟩))
        let told := gone.session.fileChanged gone.tree ⟨"src/a.ts"⟩ 0
        session.context.command = .serve ∧
        last.session.cache.entry? ⟨"src/a.ts"⟩ ≠ none ∧
        told.2.result.toOption = some .ignored ∧
        told.1.cache.entry? ⟨"src/a.ts"⟩ ≠ none) = true := by
    decide +kernel
  obtain ⟨session, hsession, hfacts⟩ := exists_ok_of_any hfacts
  obtain ⟨hserve, hentry, hok, hstays⟩ := of_decide_eq_true hfacts
  exact hstays (hall _ sourceProject 0 0 session _ ⟨"src/a.ts"⟩ .ignored wellFormed_sourceProject
    hsession hserve hentry (eq_ok_of_toOption hok))

end World

end OpManifest
