import OpManifest.Proofs.Publication
import OpManifest.Proofs.Scan

/-!
# Runs of a session

A session together with the files it works on is a world, and what happens to a
world is an event: a file is saved or deleted, or the change of a file is told.
A run is a list of events.  Two things hold of every event.

* It keeps the tree well-formed and all directories in it, and it keeps what
  the session was started with (`step_editedAt`, `step_sameProject`).
* It changes the cache only by work on one source file that succeeds
  (`processed_of_processes`, `cache_of_not_processes`).
-/

namespace OpManifest

open FileTree

namespace FileTree

/-! ## Edits from outside -/

/-- The tree after a file was saved, and before it the directories on the way.
What cannot be written is left out. -/
def saveFile (tree : FileTree) (path : Path) (content : ByteArray) : FileTree :=
  let made := (tree.createParent path).1
  match made.write path content with
  | .ok written => written
  | .error _ => made

/-- The tree after a file was deleted, if there is one. -/
def deleteFile (tree : FileTree) (path : Path) : FileTree :=
  match tree.resolve path with
  | .error _ => tree
  | .ok place => if (tree.content? place).isSome then tree.erase place else tree

theorem saveFile_editedAt (tree : FileTree) (path : Path) (content : ByteArray) :
    EditedAt (fun _ => True) tree (tree.saveFile path content) := by
  have hmade := createParent_editedAt tree path
  unfold saveFile
  simp only
  split
  · rename_i written hwrite
    obtain ⟨place, hplace, hfree, rfl⟩ := write_eq_ok hwrite
    exact (hmade.mono fun _ => False.elim).trans
      ((put_editedAt (fun hw => hw.isPlace_resolve hplace) hfree).mono fun _ _ => trivial)
  · exact hmade.mono fun _ => False.elim

theorem deleteFile_editedAt (tree : FileTree) (path : Path) :
    EditedAt (fun _ => True) tree (tree.deleteFile path) := by
  unfold deleteFile
  split
  · exact .refl tree
  · split
    · rename_i hsome
      obtain ⟨content, hcontent⟩ := Option.isSome_iff_exists.1 hsome
      exact (erase_editedAt hcontent).mono fun _ _ => trivial
    · exact .refl tree

end FileTree

/-! ## Events -/

/-- A session and the files that it works on. -/
structure World where
  session : Session
  tree : FileTree

/-- What happens to a world: a file is saved or deleted, or the session is told
of the change of a file. -/
inductive Event where
  | saved (path : Path) (content : ByteArray)
  | deleted (path : Path)
  | changed (path : Path) (time : Nat)

namespace World

/-- The world after an event. -/
def step (world : World) : Event → World
  | .saved path content => { world with tree := world.tree.saveFile path content }
  | .deleted path => { world with tree := world.tree.deleteFile path }
  | .changed path time =>
    ⟨(world.session.fileChanged world.tree path time).1,
      (world.session.fileChanged world.tree path time).2.tree⟩

/-- The world after a list of events. -/
def run (world : World) (events : List Event) : World := events.foldl step world

@[simp]
theorem run_nil (world : World) : world.run [] = world := rfl

@[simp]
theorem run_cons (world : World) (event : Event) (events : List Event) :
    world.run (event :: events) = (world.step event).run events := rfl

theorem run_append (world : World) (first second : List Event) :
    world.run (first ++ second) = (world.run first).run second := by
  simp [run]

/-- The event brings the entry with the given key up to date, and that
succeeds. -/
def Processes (world : World) (event : Event) (key : Path) (outcome : FileOutcome) : Prop :=
  ∃ path time file, event = .changed path time ∧ world.session.context.command = .serve ∧
    world.session.subject world.tree path = .source file ∧
    sourceKey world.session.root file = key ∧
    (world.session.cache.process world.session.extractor world.tree world.session.root
      file).result = .ok outcome

/-! ## One event -/

/-- What a session is started with stays. -/
structure SameProject (a b : Session) : Prop where
  root : b.root = a.root
  configPath : b.configPath = a.configPath
  context : b.context = a.context
  extractor : b.extractor = a.extractor

theorem SameProject.refl (session : Session) : SameProject session session := ⟨rfl, rfl, rfl, rfl⟩

theorem SameProject.trans {a b c : Session} (hab : SameProject a b) (hbc : SameProject b c) :
    SameProject a c :=
  ⟨hbc.root.trans hab.root, hbc.configPath.trans hab.configPath, hbc.context.trans hab.context,
    hbc.extractor.trans hab.extractor⟩

/-- After a change the session is the one that was asked for, but for the
manifest that it remembers. -/
theorem fileChanged_fst (session : Session) (tree : FileTree) (path : Path) (time : Nat) :
    (session.fileChanged tree path time).1 =
      match session.absorb tree path with
      | .ok (some ready) => (ready.publish tree time).1
      | _ => session := by
  have hrun := session.fileChanged_run tree path time
  generalize session.absorb tree path = asked at hrun ⊢
  generalize session.fileChanged tree path time = run at hrun ⊢
  cases hrun <;> rfl

theorem fileChanged_editedAt (session : Session) (tree : FileTree) (path : Path) (time : Nat) :
    EditedAt Manifest.IsOutput tree (session.fileChanged tree path time).2.tree := by
  have hrun := session.fileChanged_run tree path time
  generalize session.absorb tree path = asked at hrun
  generalize session.fileChanged tree path time = run at hrun ⊢
  cases hrun with
  | refused => exact .refl tree
  | ignored => exact .refl tree
  | published ready => exact ready.publish_editedAt tree time

theorem step_editedAt (world : World) (event : Event) :
    EditedAt (fun _ => True) world.tree (world.step event).tree := by
  cases event with
  | saved path content => exact saveFile_editedAt world.tree path content
  | deleted path => exact deleteFile_editedAt world.tree path
  | changed path time =>
    exact (fileChanged_editedAt world.session world.tree path time).mono fun _ _ => trivial

theorem step_sameProject (world : World) (event : Event) :
    SameProject world.session (world.step event).session := by
  cases event with
  | saved path content => exact .refl world.session
  | deleted path => exact .refl world.session
  | changed path time =>
    simp only [step, fileChanged_fst]
    obtain ⟨_, -, h⟩ | h | ⟨config, glob, -, h⟩ | ⟨file, outcome, -, -, -, h⟩ :=
      world.session.absorb_cases world.tree path
    · simp only [h]
      exact .refl world.session
    · simp only [h]
      exact .refl world.session
    · simp only [h]
      rw [Session.publish_fst]
      exact ⟨rfl, rfl, rfl, rfl⟩
    · simp only [h]
      rw [Session.publish_fst]
      exact ⟨rfl, rfl, rfl, rfl⟩

/-- An event that brings an entry up to date does nothing else to the cache. -/
theorem processed_of_processes {world : World} {event : Event} {key : Path} {outcome : FileOutcome}
    (h : world.Processes event key outcome) :
    SourceCache.Processed world.session.cache world.session.extractor world.tree
      world.session.root key outcome (world.step event).session.cache := by
  obtain ⟨path, time, file, rfl, hserve, hsubject, rfl, hresult⟩ := h
  have hprocessed := SourceCache.processed_of_process hresult
  rcases hrun : world.session.cache.process world.session.extractor world.tree world.session.root
    file with ⟨cache, cause | done, extractions⟩
  · simp [hrun] at hresult
  · have habsorb := Session.absorb_of_source hserve hsubject hrun
    simp only [Except.mapError, Except.map] at habsorb
    rw [hrun] at hprocessed
    simp only [step, fileChanged_fst, habsorb]
    rw [Session.publish_fst]
    exact hprocessed

/-- All other events leave the cache as it is. -/
theorem cache_of_not_processes {world : World} {event : Event}
    (h : ∀ key outcome, ¬world.Processes event key outcome) :
    (world.step event).session.cache = world.session.cache := by
  cases event with
  | saved path content => rfl
  | deleted path => rfl
  | changed path time =>
    simp only [step, fileChanged_fst]
    obtain ⟨_, -, habsorb⟩ | habsorb | ⟨config, glob, -, habsorb⟩ |
      ⟨file, outcome, hserve, hsubject, hresult, -⟩ := world.session.absorb_cases world.tree path
    · simp only [habsorb]
    · simp only [habsorb]
    · simp only [habsorb]
      rw [Session.publish_fst]
    · exact absurd ⟨path, time, file, rfl, hserve, hsubject, rfl, hresult⟩ (h _ outcome)

/-! ## Runs -/

theorem run_editedAt (world : World) (events : List Event) :
    EditedAt (fun _ => True) world.tree (world.run events).tree := by
  induction events generalizing world with
  | nil => exact .refl world.tree
  | cons event events ih => exact (world.step_editedAt event).trans (ih (world.step event))

theorem run_sameProject (world : World) (events : List Event) :
    SameProject world.session (world.run events).session := by
  induction events generalizing world with
  | nil => exact .refl world.session
  | cons event events ih => exact (world.step_sameProject event).trans (ih (world.step event))

/-- The glob of the session is that of its configuration. -/
def GlobOfConfig (session : Session) : Prop :=
  Glob.ofPattern session.config.sources = .ok session.glob

theorem globOfConfig_of_loadProject {tree : FileTree} {path : Path} {config : ProjectConfig}
    {glob : Glob} (h : loadProject tree path = .ok (config, glob)) :
    Glob.ofPattern config.sources = .ok glob := by
  unfold loadProject at h
  split at h
  · cases h
  · split at h
    · cases h
    · rename_i hglob
      obtain ⟨rfl, rfl⟩ := Prod.mk.inj (Except.ok.inj h)
      exact hglob

theorem step_globOfConfig {world : World} (event : Event) (h : GlobOfConfig world.session) :
    GlobOfConfig (world.step event).session := by
  cases event with
  | saved path content => exact h
  | deleted path => exact h
  | changed path time =>
    simp only [step, fileChanged_fst]
    obtain ⟨_, -, habsorb⟩ | habsorb | ⟨config, glob, hload, habsorb⟩ | ⟨_, _, -, -, -, habsorb⟩ :=
      world.session.absorb_cases world.tree path
    · simpa only [habsorb] using h
    · simpa only [habsorb] using h
    · simp only [habsorb]
      rw [Session.publish_fst]
      exact globOfConfig_of_loadProject hload
    · simp only [habsorb]
      rw [Session.publish_fst]
      exact h

theorem run_globOfConfig {world : World} (events : List Event) (h : GlobOfConfig world.session) :
    GlobOfConfig (world.run events).session := by
  induction events generalizing world with
  | nil => exact h
  | cons event events ih => exact ih (step_globOfConfig event h)

/-! ## The first world -/

/-- A server was started in a tree: its cache is that of a scan of this tree. -/
structure StartedIn (world : World) (tree : FileTree) (base : Place) : Prop where
  before : tree.WellFormed
  node : tree.node? base ≠ none
  root : world.session.root = Path.ofPlace base
  glob : GlobOfConfig world.session
  scanned : ∃ found, (({} : SourceCache).scan world.session.extractor tree world.session.root
    world.session.glob).result = .ok found
  cache : world.session.cache = (({} : SourceCache).scan world.session.extractor tree
    world.session.root world.session.glob).cache
  wellFormed : world.tree.WellFormed
  directory : world.tree.node? base = some .directory

theorem isName_base {world : World} {tree : FileTree} {base : Place}
    (h : world.StartedIn tree base) : ∀ name ∈ base, Path.IsName name :=
  h.before.isName h.node

theorem StartedIn.wellFormed_run {world : World} {tree : FileTree} {base : Place}
    (h : world.StartedIn tree base) (events : List Event) : (world.run events).tree.WellFormed :=
  (world.run_editedAt events).wellFormed h.wellFormed

theorem StartedIn.directory_run {world : World} {tree : FileTree} {base : Place}
    (h : world.StartedIn tree base) (events : List Event) :
    (world.run events).tree.node? base = some .directory :=
  (world.run_editedAt events).kept.directory base h.directory

theorem scanned_eq_ok {options : SessionOptions} {tree : FileTree} {session : Session}
    (h : Session.scanned options tree = .ok session) :
    ∃ base, tree.node? base ≠ none ∧ session.root = Path.ofPlace base ∧ GlobOfConfig session ∧
      (∃ found, (({} : SourceCache).scan session.extractor tree session.root
        session.glob).result = .ok found) ∧
      session.cache = (({} : SourceCache).scan session.extractor tree session.root
        session.glob).cache := by
  unfold Session.scanned at h
  cases hroot : tree.canonical? options.root with
  | none => simp [hroot] at h
  | some root =>
    simp only [hroot] at h
    obtain ⟨base, -, hbase, rfl⟩ := canonical?_eq_some hroot
    cases hload : loadProject tree
        (ProjectConfig.pathIn (Path.ofPlace base) options.configFile) with
    | error e => simp [hload] at h
    | ok loaded =>
      obtain ⟨config, glob⟩ := loaded
      simp only [hload] at h
      split at h
      · cases h
      · rename_i found hscan
        obtain rfl := Except.ok.inj h
        exact ⟨base, hbase, rfl, globOfConfig_of_loadProject hload, ⟨found, hscan⟩, rfl⟩

/-- The place below which a plain name can be read is a directory. -/
theorem directory_of_readBytes {tree : FileTree} {base : Place} {name : String}
    {content : ByteArray} (hwell : tree.WellFormed) (hbase : ∀ name ∈ base, Path.IsName name)
    (hname : Path.IsName name)
    (h : tree.readBytes ((Path.ofPlace base).join ⟨name⟩) = .ok content) :
    tree.node? base = some .directory := by
  have hone : ∀ other ∈ [name], Path.IsName other := by simpa using hname
  have hsame : Path.ofNames [name] = ⟨name⟩ := by simp [Path.ofNames]
  have hall : ∀ other ∈ base ++ [name], Path.IsName other := fun other hother =>
    (List.mem_append.1 hother).elim (hbase other) (hone other)
  rw [← hsame, Path.join_ofNames hbase hone (by simp), readBytes_ofPlace hwell hall (by simp)] at h
  exact hwell.parent base name (by simp [content?_eq_some.1 h])

/-- A server that starts in a well-formed tree has scanned that tree, and its
root is a directory. -/
theorem startedIn_of_start {options : SessionOptions} {tree : FileTree} {time : Nat}
    {session : Session} (hwell : tree.WellFormed)
    (h : (Session.start options tree time).result = .ok session)
    (hserve : session.context.command = .serve) :
    ∃ base, StartedIn ⟨session, (Session.start options tree time).tree⟩ tree base := by
  obtain ⟨manifest, hpublished⟩ := Session.published_of_start h hserve
  obtain ⟨first, written, hscanned, hpublish⟩ := Session.publish_of_start h hserve
  obtain ⟨base, hnode, hroot, hglob, hresult, hcache⟩ := scanned_eq_ok hscanned
  have hedited := first.publish_editedAt tree time
  have hfirst := first.publish_fst tree time
  rw [hpublish] at hedited hfirst
  simp only at hfirst
  have hafter := hedited.wellFormed hwell
  have hdirectory : (Session.start options tree time).tree.node? base = some .directory := by
    have hread := hpublished.inRoot
    have hsame : session.root = Path.ofPlace base := by rw [hfirst, ← hroot]
    rw [hsame] at hread
    exact directory_of_readBytes hafter (hwell.isName hnode) isNodeName_manifestFileName.1 hread
  refine ⟨base, hwell, hnode, ?_, ?_, ?_, ?_, hafter, hdirectory⟩
  · rw [hfirst]
    exact hroot
  · rw [hfirst]
    exact hglob
  · rw [hfirst]
    exact hresult
  · rw [hfirst]
    exact hcache

/-! ## Plain changes -/

/-- A file that is located spells plain names, or does not lie below the
root. -/
theorem locate_spells {session : Session} {tree : FileTree} {path : Path} {base : Place}
    (hwell : tree.WellFormed) (hroot : session.root = Path.ofPlace base)
    (hbase : ∀ name ∈ base, Path.IsName name) (hplain : path.IsPlain) :
    (∃ names, (∀ name ∈ names, Path.IsName name) ∧ (session.locate tree path).Spells names) ∨
      (session.locate tree path).startsWith session.root = false := by
  obtain htold | ⟨_, name, directory, -, -, -, hplace, hlocated⟩ := session.locate_cases hwell path
  · rw [htold]
    by_cases hstarts : (session.root.join path).startsWith session.root = true
    · rw [hroot]
      exact .inl (Path.spells_join hplain hbase)
    · exact .inr (by simpa using hstarts)
  · rw [hlocated]
    exact .inl ⟨directory ++ [name], hplace, Path.spells_ofPlace _⟩

/-- A plain path tells of a source under a key that spells plain names. -/
theorem subject_eq_source {session : Session} {tree : FileTree} {path file : Path} {base : Place}
    (hwell : tree.WellFormed) (hroot : session.root = Path.ofPlace base)
    (hbase : ∀ name ∈ base, Path.IsName name) (hplain : path.IsPlain)
    (h : session.subject tree path = .source file) :
    ∃ names, (∀ name ∈ names, Path.IsName name) ∧ file = Path.ofNames names ∧
      session.glob.selects file.text = true := by
  obtain ⟨hstrip, hselects⟩ := Session.source_of_subject h
  obtain ⟨names, hnames, hspells⟩ | hfalse := locate_spells hwell hroot hbase hplain
  · rw [hroot, Path.stripPrefix?_of_spells hspells hbase hnames] at hstrip
    split at hstrip
    · refine ⟨_, fun name hname => ?_, (Option.some.inj hstrip).symm, hselects⟩
      exact hnames name (List.mem_of_mem_drop hname)
    · cases hstrip
  · rw [Path.stripPrefix?, hfalse] at hstrip
    cases hstrip

/-- What a plain change processes is the key of plain names that the glob
selects. -/
theorem Processes.plain {world : World} {event : Event} {key : Path} {outcome : FileOutcome}
    {base : Place} (h : world.Processes event key outcome) (hwell : world.tree.WellFormed)
    (hroot : world.session.root = Path.ofPlace base) (hbase : ∀ name ∈ base, Path.IsName name)
    (hplain : ∀ path time, event = .changed path time → path.IsPlain) :
    ∃ names, (∀ name ∈ names, Path.IsName name) ∧ key = Path.ofNames names ∧
      world.session.glob.selects key.text = true := by
  obtain ⟨path, time, file, hevent, -, hsubject, rfl, -⟩ := h
  obtain ⟨names, hnames, rfl, hselects⟩ :=
    subject_eq_source hwell hroot hbase (hplain path time hevent) hsubject
  rw [hroot, sourceKey_ofNames hbase hnames]
  exact ⟨names, hnames, rfl, hselects⟩

end World

end OpManifest
